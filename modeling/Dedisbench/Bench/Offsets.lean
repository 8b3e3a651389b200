import Dedisbench.Bench.IoDist

/-!
# When there is a position at all

`main` checks that the sizes are not zero, and nothing about the numbers of blocks derived from them.  A
position is found for every draw if there are enough blocks for the access type (`Conf.Enough`), and then
it lies in the region of the process (`Conf.getIoposition_eq`).  With fewer blocks the selection divides by
zero or never ends.
-/

namespace Dedisbench

open ExceptRun

variable {conf : Conf} {totb : ℕ} {raws : List ℕ}

/-- The numbers of blocks that each access type can choose from.  A random choice divides by the number of
the last block, and NURand by a tenth of the file. -/
def Conf.Enough (conf : Conf) : Prop :=
  match conf.accesstype with
  | .sequential => 1 ≤ conf.region
  | .uniform => 2 ≤ conf.region
  | .tpcc => 10 ≤ conf.totblocks ∧ 2 ≤ conf.region

/-! ### A draw that is never rejected -/

/-- The bound of the rejection loop is above every 32-bit number, so the first draw is accepted. -/
theorem genrand_first {max : ℕ} (hpos : 0 < max) (hmax : max ≤ int64Max) (raw : ℕ) (raws : List ℕ) :
    genrand max (raw :: raws) = .ok (u32 raw % max, raws) := by
  have hmod : int64Max % max < max := Nat.mod_lt _ hpos
  have hdiv : max * (int64Max / max) + int64Max % max = int64Max := Nat.div_add_mod int64Max max
  have hmax63 : int64Max = 2 ^ 63 - 1 := rfl
  have hlt : u32 raw < int64Max / max * max := by
    have h32 := u32_lt raw
    have hone : 1 ≤ int64Max / max := Nat.div_pos hmax hpos
    have hle : max * 1 ≤ max * (int64Max / max) := Nat.mul_le_mul_left _ hone
    rw [Nat.mul_comm]
    omega
  unfold genrand
  rw [if_neg (by omega)]
  show genrandLoop _ _ _ _ = _
  rw [genrandLoop.eq_def]
  exact if_pos hlt

theorem genrand_eq {max : ℕ} (hpos : 0 < max) (hmax : max ≤ 2 ^ 52) (raw : ℕ) (raws : List ℕ) :
    genrand max (raw :: raws) = .ok (u32 raw % max, raws) :=
  genrand_first hpos (hmax.trans (by decide)) raw raws

theorem Conf.totblocks_le (hbs : 4096 ≤ conf.blockSize) : conf.totblocks ≤ 2 ^ 52 := by
  have hmul := conf.totblocks_mul_le
  have hlt := conf.filesize_lt
  have hle : conf.totblocks * 4096 ≤ conf.totblocks * conf.blockSize := Nat.mul_le_mul_left _ hbs
  omega

theorem initIoposition_ok (hbs : 4096 ≤ conf.blockSize) (raw : ℕ) (raws : List ℕ) :
    ∃ c rest, initIoposition conf (raw :: raws) = .ok (c, rest) := by
  unfold initIoposition
  split
  · have hle := Conf.totblocks_le hbs
    exact ⟨_, _, genrand_eq (by omega) (by unfold Conf.aNurand; omega) raw raws⟩
  · exact ⟨_, _, rfl⟩

/-! ### A position for every draw -/

theorem getIopositionSeq_ok (hpos : 0 < totb) (hle : totb ≤ conf.totblocks) (cont : ℕ) :
    ∃ k < totb, getIopositionSeq totb cont conf.blockSize = .ok (k * conf.blockSize) := by
  have hlt : cont % totb < totb := Nat.mod_lt _ hpos
  refine ⟨cont % totb, hlt, ?_⟩
  rw [getIopositionSeq, if_neg (by omega), u64_of_lt (conf.offset_lt (by omega))]

theorem getIopositionUniform_ok (hbs : 4096 ≤ conf.blockSize) (h2 : 2 ≤ totb) (hle : totb ≤ conf.totblocks)
    (raw : ℕ) (raws : List ℕ) : ∃ k < totb, getIopositionUniform totb conf.blockSize (raw :: raws)
      = .ok (k * conf.blockSize, raws) := by
  have h52 := Conf.totblocks_le hbs
  have hlt : u32 raw % (totb - 1) < totb - 1 := Nat.mod_lt _ (by omega)
  refine ⟨u32 raw % (totb - 1), by omega, ?_⟩
  rw [getIopositionUniform, u64_pred (by omega) (by omega), genrand_eq (by omega) (by omega), bind_ok]
  simp only [u64_of_lt (conf.offset_lt (show u32 raw % (totb - 1) ≤ conf.totblocks by omega))]

theorem getIopositionTpcc_ok (hbs : 4096 ≤ conf.blockSize) (h10 : 10 ≤ conf.totblocks) (h2 : 2 ≤ totb)
    (hle : totb ≤ conf.totblocks) (c r₁ r₂ : ℕ) (raws : List ℕ) :
    ∃ k < totb, getIopositionTpcc conf.aNurand c totb conf.blockSize (r₁ :: r₂ :: raws)
      = .ok (k * conf.blockSize, raws) := by
  have h52 := Conf.totblocks_le hbs
  have ha : 0 < conf.aNurand ∧ conf.aNurand ≤ 2 ^ 52 := by unfold Conf.aNurand; omega
  have hy : u64 (totb + 2 ^ 64 - 1) = totb - 1 := u64_pred (by omega) (by omega)
  have hrange : u64 (totb - 1 - 0 + 1) = totb := by
    rw [Nat.sub_zero, Nat.sub_add_cancel (by omega)]
    exact u64_of_lt (by omega)
  unfold getIopositionTpcc
  simp only [hy, genrand_eq ha.1 ha.2, genrand_eq (show 0 < totb - 1 by omega) (show totb - 1 ≤ 2 ^ 52 by omega),
    bind_ok, hrange]
  rw [if_neg (by omega)]
  set v := u64 ((u32 r₁ % conf.aNurand ||| u32 r₂ % (totb - 1)) + c) with hv
  have hlt : v % totb < totb := Nat.mod_lt _ (by omega)
  exact ⟨v % totb, hlt, by rw [Nat.add_zero, u64_of_lt (conf.offset_lt (by omega))]⟩

/-- Every access type chooses a block of the region. -/
theorem Conf.positionIn_ok (hbs : 4096 ≤ conf.blockSize) (h : conf.Enough) (totOps c r₁ r₂ : ℕ) (raws : List ℕ) :
    ∃ k < conf.region, ∃ rest, conf.positionIn conf.region totOps c (r₁ :: r₂ :: raws)
      = .ok (k * conf.blockSize, rest) := by
  unfold Conf.Enough at h
  unfold Conf.positionIn
  cases hacc : conf.accesstype with
  | sequential =>
    rw [hacc] at h
    obtain ⟨k, hk, heq⟩ := getIopositionSeq_ok h conf.region_le totOps
    exact ⟨k, hk, _, by simp only [heq, bind_ok]; rfl⟩
  | uniform =>
    rw [hacc] at h
    obtain ⟨k, hk, heq⟩ := getIopositionUniform_ok hbs h conf.region_le r₁ (r₂ :: raws)
    exact ⟨k, hk, _, heq⟩
  | tpcc =>
    rw [hacc] at h
    obtain ⟨k, hk, heq⟩ := getIopositionTpcc_ok hbs h.1 h.2 conf.region_le c r₁ r₂ raws
    exact ⟨k, hk, _, heq⟩

/-- **A position is found for every draw.** -/
theorem Conf.getIoposition_ok (hbs : 4096 ≤ conf.blockSize) (h : conf.Enough) {idproc : ℕ}
    (hid : idproc < conf.nprocs) (totOps c r₁ r₂ : ℕ) (raws : List ℕ) :
    ∃ off rest, getIoposition conf totOps c idproc (r₁ :: r₂ :: raws) = .ok (off, rest) := by
  obtain ⟨k, hk, rest, heq⟩ := Conf.positionIn_ok hbs h totOps c r₁ r₂ raws
  refine ⟨(conf.regionStart idproc + k) * conf.blockSize, rest, ?_⟩
  unfold getIoposition
  rw [Conf.regionBlocks_eq (by omega)]
  simp only [bind_ok, heq]
  exact Conf.regionStart_add hid hk

/-- On a device, the block of a position lies between the bounds of the region of the process. -/
theorem Conf.block_in_region {totOps c idproc off : ℕ} {rest : List ℕ} (hid : idproc < conf.nprocs)
    (hraw : conf.rawdevice = true) (h : getIoposition conf totOps c idproc raws = .ok (off, rest)) :
    idproc * (conf.totblocks / conf.nprocs) ≤ off / conf.blockSize ∧
      off / conf.blockSize < (idproc + 1) * (conf.totblocks / conf.nprocs) := by
  obtain ⟨k, hk, rfl⟩ := getIoposition_region hid h
  unfold Conf.region at hk
  rw [if_pos hraw] at hk
  unfold Conf.regionStart Conf.region
  rw [if_pos hraw, if_pos hraw]
  rw [Nat.mul_div_cancel _ conf.blockSize_pos]
  constructor
  · exact Nat.le_add_right _ _
  · rw [Nat.add_mul, Nat.one_mul]
    omega

/-- In order: the block is the number of operations, modulo the size of the region. -/
theorem Conf.block_sequential {totOps c idproc off : ℕ} {rest : List ℕ} (hid : idproc < conf.nprocs)
    (hacc : conf.accesstype = .sequential) (h : getIoposition conf totOps c idproc raws = .ok (off, rest)) :
    off / conf.blockSize = conf.regionStart idproc + totOps % conf.region := by
  unfold getIoposition Conf.positionIn at h
  rw [Conf.regionBlocks_eq (by omega), hacc] at h
  simp only [bind_ok, bind_eq_ok] at h
  obtain ⟨⟨off', raws'⟩, ⟨x, hx, hoff⟩, h⟩ := h
  cases hoff
  obtain ⟨k, hk, -⟩ := getIopositionSeq_block conf.region_le hx
  have hlt : totOps % conf.region < conf.region := Nat.mod_lt _ (by omega)
  have hle := conf.region_le
  rw [getIopositionSeq, if_neg (by omega), u64_of_lt (conf.offset_lt (by omega))] at hx
  cases hx
  rw [Conf.regionStart_add hid hlt] at h
  cases h
  exact Nat.mul_div_cancel _ conf.blockSize_pos

/-- **Offsets stay in range and processes stay in their own region.**  `init_ioposition` finds its constant,
and with any constant, any draws and any number of operations behind it, every process gets the start of a
block of the file; on a device it is one of its own region, so no two processes get the same block. -/
theorem offsets_in_region (hbs : 4096 ≤ conf.blockSize) (h10 : 10 ≤ conf.totblocks)
    (h2 : conf.rawdevice = true → 2 ≤ conf.totblocks / conf.nprocs) :
    (∀ raw raws, ∃ c rest, initIoposition conf (raw :: raws) = .ok (c, rest)) ∧
    (∀ totOps c r₁ r₂ raws, ∀ idproc < conf.nprocs, ∃ off rest,
      getIoposition conf totOps c idproc (r₁ :: r₂ :: raws) = .ok (off, rest) ∧
        conf.blockSize ∣ off ∧ off / conf.blockSize < conf.totblocks ∧
        (conf.rawdevice = true → idproc * (conf.totblocks / conf.nprocs) ≤ off / conf.blockSize ∧
          off / conf.blockSize < (idproc + 1) * (conf.totblocks / conf.nprocs))) ∧
    ∀ totOps c raws off rest totOps' c' raws' off' rest', ∀ i < conf.nprocs, ∀ j < conf.nprocs,
      conf.rawdevice = true → i ≠ j → getIoposition conf totOps c i raws = .ok (off, rest) →
        getIoposition conf totOps' c' j raws' = .ok (off', rest') → off / conf.blockSize ≠ off' / conf.blockSize := by
  have henough : conf.Enough := by
    have hregion : 2 ≤ conf.region := by
      unfold Conf.region
      split
      next hraw => exact h2 hraw
      next => omega
    unfold Conf.Enough
    split
    · omega
    · exact hregion
    · exact ⟨h10, hregion⟩
  refine ⟨fun raw raws => initIoposition_ok hbs raw raws, ?_, ?_⟩
  · intro totOps c r₁ r₂ raws idproc hid
    obtain ⟨off, rest, h⟩ := Conf.getIoposition_ok hbs henough hid totOps c r₁ r₂ raws
    obtain ⟨k, hk, hoff⟩ := getIoposition_block hid h
    refine ⟨off, rest, h, hoff ▸ Nat.dvd_mul_left _ _, ?_, fun hraw => Conf.block_in_region hid hraw h⟩
    rwa [hoff, Nat.mul_div_cancel _ conf.blockSize_pos]
  · intro totOps c raws off rest totOps' c' raws' off' rest' i hi j hj hraw hij h h' heq
    obtain ⟨hlo, hhi⟩ := Conf.block_in_region hi hraw h
    obtain ⟨hlo', hhi'⟩ := Conf.block_in_region hj hraw h'
    rw [← heq] at hlo' hhi'
    -- the regions of the smaller and of the larger number do not meet
    rcases Nat.lt_or_gt_of_ne hij with hlt | hlt
    · exact absurd (hhi.trans_le ((Nat.mul_le_mul_right _ hlt).trans hlo')) (lt_irrefl _)
    · exact absurd (hhi'.trans_le ((Nat.mul_le_mul_right _ hlt).trans hlo)) (lt_irrefl _)

/-- A device of twenty blocks for two processes. -/
def twoRegions : Conf where
  blockSize := 4096
  filesize := 81920
  nprocs := 2
  mixedIO := false
  rawdevice := true
  accesstype := .tpcc
  distout := false
  integrity := 0
  percentageAnalyze := 2
  compressionToAchieve := 25
  blockSize_pos := by decide
  filesize_lt := by decide

theorem twoRegions_offsets : ∃ off rest, getIoposition twoRegions 0 1 1 [5, 6] = .ok (off, rest) ∧
    10 ≤ off / 4096 ∧ off / 4096 < 20 := by
  obtain ⟨off, rest, h, -, -, hregion⟩ := (@offsets_in_region twoRegions (by decide) (by decide)
    fun _ => by decide).2.1 0 1 5 6 [] 1 (by decide)
  exact ⟨off, rest, h, hregion rfl⟩

/-! ### Configurations with too few blocks -/

/-- `launch_benchmark`: the `idproc` of every process.  The second half of a mixed load reads. -/
def Conf.launched (conf : Conf) : List ℕ :=
  (List.range conf.nprocs).map fun i =>
    if conf.mixedIO && decide (conf.nprocs / 2 ≤ i) then i - conf.nprocs / 2 else i

theorem Conf.lt_of_mem_launched {idproc : ℕ} (h : idproc ∈ conf.launched) : idproc < conf.nprocs := by
  obtain ⟨i, hi, rfl⟩ := List.mem_map.mp h
  have hi := List.mem_range.mp hi
  split <;> omega

/-- Every selection a process makes comes back, with an offset of a block within the file or device.  One
draw is enough for the constant of NURand and two for a position: no draw is rejected for ever. -/
structure OffsetsSafe (conf : Conf) : Prop where
  init : ∀ idproc ∈ conf.launched, ∀ raw raws, ∃ c rest, initIoposition conf (raw :: raws) = .ok (c, rest)
  position : ∀ idproc ∈ conf.launched, ∀ totOps raws₀ c rest₀ r₁ r₂ raws,
    initIoposition conf raws₀ = .ok (c, rest₀) → ∃ off rest,
      getIoposition conf totOps c idproc (r₁ :: r₂ :: raws) = .ok (off, rest) ∧
        off + conf.blockSize ≤ conf.filesize

/-- The range of a draw is not empty. -/
theorem pos_of_genrand {max v : ℕ} {rest : List ℕ} (h : genrand max raws = .ok (v, rest)) : 0 < max := by
  refine Nat.pos_of_ne_zero fun h0 => ?_
  unfold genrand at h
  rw [if_pos h0] at h
  cases h

/-- No block is drawn from one block either: the draw divides by zero. -/
theorem two_le_of_genrand_pred {v : ℕ} {rest : List ℕ} (htotb : totb ≤ conf.totblocks)
    (h : genrand (u64 (totb + 2 ^ 64 - 1)) raws = .ok (v, rest)) : 2 ≤ totb := by
  have hlt := htotb.trans_lt conf.totblocks_lt
  have hpos := pos_of_genrand_pred hlt h
  have hmax := pos_of_genrand h
  rw [u64_pred hpos hlt] at hmax
  omega

theorem Conf.enough_of_getIoposition {totOps c idproc off : ℕ} {rest : List ℕ} (hid : idproc < conf.nprocs)
    (h : getIoposition conf totOps c idproc raws = .ok (off, rest)) : conf.Enough := by
  unfold getIoposition at h
  rw [Conf.regionBlocks_eq (by omega)] at h
  simp only [bind_ok, bind_eq_ok] at h
  obtain ⟨x, hx, -⟩ := h
  unfold Conf.positionIn at hx
  unfold Conf.Enough
  cases hacc : conf.accesstype with
  | sequential =>
    rw [hacc] at hx
    simp only [bind_eq_ok] at hx
    obtain ⟨off, hoff, -⟩ := hx
    obtain ⟨k, hk, -⟩ := getIopositionSeq_block conf.region_le hoff
    show 1 ≤ conf.region
    omega
  | uniform =>
    rw [hacc] at hx
    simp only [getIopositionUniform, bind_eq_ok] at hx
    obtain ⟨⟨v, rest'⟩, hv, -⟩ := hx
    exact two_le_of_genrand_pred conf.region_le hv
  | tpcc =>
    rw [hacc] at hx
    simp only [getIopositionTpcc, bind_eq_ok] at hx
    obtain ⟨⟨a, raws₁⟩, ha, ⟨b, raws₂⟩, hb, -⟩ := hx
    have hpos : 0 < conf.totblocks / 10 := pos_of_genrand ha
    exact ⟨by omega, two_le_of_genrand_pred conf.region_le hb⟩

/-- **Exactly which configurations can choose an offset.**  `main` accepts any; the selection divides by zero
or never ends unless there are enough blocks for the access type. -/
theorem offsets_safe_iff (hbs : 4096 ≤ conf.blockSize) : OffsetsSafe conf ↔ conf.nprocs = 0 ∨ conf.Enough := by
  constructor
  · intro h
    rcases Nat.eq_zero_or_pos conf.nprocs with h0 | hpos
    · exact .inl h0
    right
    -- some process is launched, and finds a position
    obtain ⟨idproc, hmem⟩ : ∃ idproc, idproc ∈ conf.launched :=
      ⟨_, List.mem_map.mpr ⟨0, List.mem_range.mpr hpos, rfl⟩⟩
    obtain ⟨c, rest₀, hc⟩ := h.init idproc hmem 0 []
    obtain ⟨off, rest, hoff, -⟩ := h.position idproc hmem 0 [0] c rest₀ 0 0 [] hc
    exact Conf.enough_of_getIoposition (Conf.lt_of_mem_launched hmem) hoff
  · rintro (h0 | henough)
    · have hnone : conf.launched = [] := by unfold Conf.launched; rw [h0]; rfl
      refine ⟨?_, ?_⟩ <;> rw [hnone] <;> intro idproc hmem <;> cases hmem
    refine ⟨fun _ _ raw raws => initIoposition_ok hbs raw raws, ?_⟩
    intro idproc hmem totOps raws₀ c rest₀ r₁ r₂ raws _
    have hid := Conf.lt_of_mem_launched hmem
    obtain ⟨off, rest, h⟩ := Conf.getIoposition_ok hbs henough hid totOps c r₁ r₂ raws
    obtain ⟨k, hk, rfl⟩ := getIoposition_block hid h
    refine ⟨_, rest, h, ?_⟩
    calc k * conf.blockSize + conf.blockSize = (k + 1) * conf.blockSize := by ring
      _ ≤ conf.totblocks * conf.blockSize := Nat.mul_le_mul_right _ hk
      _ ≤ conf.filesize := conf.totblocks_mul_le

/-- A file of 1 MiB in eight blocks, with the default access type. -/
def eightBlocks : Conf where
  blockSize := 131072
  filesize := 1048576
  nprocs := 4
  mixedIO := false
  rawdevice := false
  accesstype := .tpcc
  distout := false
  integrity := 0
  percentageAnalyze := 2
  compressionToAchieve := 25
  blockSize_pos := by decide
  filesize_lt := by decide

/-- A tenth of eight blocks is none, and the first position divides by it. -/
theorem eightBlocks_divides_by_zero : 4096 ∣ eightBlocks.blockSize ∧
    initIoposition eightBlocks [7] = .ok (0, []) ∧
    getIoposition eightBlocks 0 0 0 [5, 6] = .error .divZero ∧ ¬ OffsetsSafe eightBlocks := by
  refine ⟨by decide, rfl, rfl, fun h => ?_⟩
  obtain ⟨off, rest, hoff, -⟩ := h.position 0 (by decide) 0 [7] 0 [] 5 6 [] rfl
  cases hoff

theorem eightBlocks_uniform_safe : OffsetsSafe { eightBlocks with accesstype := .uniform } :=
  (@offsets_safe_iff { eightBlocks with accesstype := .uniform } (by decide)).mpr (.inr (by
    show 2 ≤ 1048576 / 131072
    decide))

end Dedisbench
