import Dedisbench.Machine
import Mathlib.Tactic.Ring

/-!
# Where the next operation goes

`benchcore/accesses/iodist.c` and `genrand`: a process picks the offset of its next operation, in
order, at random, or by the NURand function of TPC-C.  A file is cut into blocks; in raw-device mode
every process has a region of the device of its own.  Whatever the access type, the offset picked is
the start of a block of the file (`getIoposition_block`).
-/

namespace Dedisbench

open ExceptRun

/-- `accesstype` -/
inductive AccessType where
  | sequential
  | uniform
  | tpcc
  deriving DecidableEq

/-- The fields of `struct user_confs` that decide what is written where.  `main` has checked that
`block_size` is not zero; a `uint64_t` holds the size of a file in bytes, and the product that gives it
may wrap to zero. -/
structure Conf where
  blockSize : ℕ
  filesize : ℕ
  nprocs : ℕ
  mixedIO : Bool
  rawdevice : Bool
  accesstype : AccessType
  distout : Bool
  integrity : ℕ
  percentageAnalyze : ℕ
  compressionToAchieve : ℕ
  blockSize_pos : 0 < blockSize
  filesize_lt : filesize < 2 ^ 64

/-- `totblocks`: the blocks of a file. -/
def Conf.totblocks (conf : Conf) : ℕ := conf.filesize / conf.blockSize

/-! ### Random numbers -/

/-- `INT64_MAX` -/
def int64Max : ℕ := 2 ^ 63 - 1

/-- The rejection loop of `genrand`, with `t` drawn last and `raws` still to be drawn. -/
def genrandLoop (bound max : ℕ) : ℕ → List ℕ → Exec (ℕ × List ℕ)
  | t, raws =>
    if t < bound then .ok (t % max, raws)
    else match raws with
      | [] => .error .diverges
      | raw :: raws => genrandLoop bound max (u64 raw) raws

/-- `genrand`: the first draw has 32 bits, the later ones 64.  It takes draws off the sequence it is
given and returns the rest; a sequence too short for it stands for a loop that does not end. -/
def genrand (max : ℕ) (raws : List ℕ) : Exec (ℕ × List ℕ) :=
  if max = 0 then .error .divZero
  else match raws with
    | [] => .error .diverges
    | raw :: raws => genrandLoop (int64Max / max * max) max (u32 raw) raws

theorem genrandLoop_lt {bound max : ℕ} (hmax : 0 < max) :
    ∀ {raws : List ℕ} {t v : ℕ} {rest : List ℕ}, genrandLoop bound max t raws = .ok (v, rest) → v < max := by
  intro raws
  induction raws with
  | nil =>
    intro t v rest h
    rw [genrandLoop] at h
    split at h
    · cases h; exact Nat.mod_lt _ hmax
    · cases h
  | cons raw raws ih =>
    intro t v rest h
    rw [genrandLoop] at h
    split at h
    · cases h; exact Nat.mod_lt _ hmax
    · exact ih h

theorem genrand_lt {max v : ℕ} {raws rest : List ℕ} (h : genrand max raws = .ok (v, rest)) : v < max := by
  unfold genrand at h
  split at h
  · cases h
  next hmax =>
    split at h
    · cases h
    · exact genrandLoop_lt (Nat.pos_of_ne_zero hmax) h

theorem not_genrandLoop_zero {max : ℕ} :
    ∀ {raws : List ℕ} {t : ℕ} {x : ℕ × List ℕ}, genrandLoop 0 max t raws ≠ .ok x := by
  intro raws
  induction raws with
  | nil => intro t x h; rw [genrandLoop, if_neg (by omega)] at h; cases h
  | cons raw raws ih =>
    intro t x h
    rw [genrandLoop, if_neg (by omega)] at h
    exact ih h

/-- A range wider than `INT64_MAX` leaves no value to accept, and the loop does not end. -/
theorem genrand_le {max v : ℕ} {raws rest : List ℕ} (h : genrand max raws = .ok (v, rest)) : max ≤ int64Max := by
  by_contra hmax
  unfold genrand at h
  rw [Nat.div_eq_of_lt (by omega), Nat.zero_mul] at h
  split at h
  · cases h
  · split at h
    · cases h
    · exact not_genrandLoop_zero h

/-! ### Positions -/

/-- `a_nurand`, set by `initialize_nurand`. -/
def Conf.aNurand (conf : Conf) : ℕ := conf.totblocks / 10

/-- `init_ioposition`: the constant `c_nurand` of the process. -/
def initIoposition (conf : Conf) (raws : List ℕ) : Exec (ℕ × List ℕ) :=
  if conf.accesstype = .tpcc then genrand (conf.aNurand + 1) raws else .ok (0, raws)

/-- `get_ioposition_seq` -/
def getIopositionSeq (totb cont blockSize : ℕ) : Exec ℕ :=
  if totb = 0 then .error .divZero else .ok (u64 (cont % totb * blockSize))

/-- `get_ioposition_uniform` -/
def getIopositionUniform (totb blockSize : ℕ) (raws : List ℕ) : Exec (ℕ × List ℕ) := do
  let (res, raws) ← genrand (u64 (totb + 2 ^ 64 - 1)) raws
  .ok (u64 (res * blockSize), raws)

/-- `get_ioposition_tpcc` -/
def getIopositionTpcc (aNurand cNurand totb blockSize : ℕ) (raws : List ℕ) : Exec (ℕ × List ℕ) := do
  let x := 0
  let y := u64 (totb + 2 ^ 64 - 1)
  let (a, raws) ← genrand aNurand raws
  let (b, raws) ← genrand y raws
  let range := u64 (y - x + 1)
  if range = 0 then .error .divZero
  else
    let res := u64 ((a ||| b) + cNurand) % range + x
    .ok (u64 (res * blockSize), raws)

/-- `total_blocks` of `get_ioposition`: the blocks of the file, or of the region of a process. -/
def Conf.regionBlocks (conf : Conf) : Exec ℕ :=
  if conf.rawdevice then
    if conf.nprocs = 0 then .error .divZero else .ok (conf.totblocks / conf.nprocs)
  else .ok conf.totblocks

/-- The choice of `get_ioposition` by access type. -/
def Conf.positionIn (conf : Conf) (totalBlocks totOps cNurand : ℕ) (raws : List ℕ) : Exec (ℕ × List ℕ) :=
  match conf.accesstype with
  | .sequential => do
    let iooffset ← getIopositionSeq totalBlocks totOps conf.blockSize
    .ok (iooffset, raws)
  | .uniform => getIopositionUniform totalBlocks conf.blockSize raws
  | .tpcc => getIopositionTpcc conf.aNurand cNurand totalBlocks conf.blockSize raws

/-- `get_ioposition` -/
def getIoposition (conf : Conf) (totOps cNurand idproc : ℕ) (raws : List ℕ) : Exec (ℕ × List ℕ) := do
  let totalBlocks ← conf.regionBlocks
  let (iooffset, raws) ← conf.positionIn totalBlocks totOps cNurand raws
  if conf.rawdevice then .ok (u64 (u64 (totalBlocks * conf.blockSize * idproc) + iooffset), raws)
  else .ok (iooffset, raws)

/-! ### Every position is a block -/

theorem u64_of_lt {n : ℕ} (h : n < 2 ^ 64) : u64 n = n := Nat.mod_eq_of_lt h

theorem Conf.totblocks_mul_le (conf : Conf) : conf.totblocks * conf.blockSize ≤ conf.filesize :=
  Nat.div_mul_le_self _ _

/-- The start of a block of the file is an offset that fits. -/
theorem Conf.offset_lt (conf : Conf) {k : ℕ} (h : k ≤ conf.totblocks) : k * conf.blockSize < 2 ^ 64 :=
  lt_of_le_of_lt (le_trans (Nat.mul_le_mul_right _ h) conf.totblocks_mul_le) conf.filesize_lt

theorem Conf.totblocks_lt (conf : Conf) : conf.totblocks < 2 ^ 64 :=
  lt_of_le_of_lt (Nat.div_le_self _ _) conf.filesize_lt

/-- The largest block number of a file of `n` blocks. -/
theorem u64_pred {n : ℕ} (hpos : 0 < n) (hn : n < 2 ^ 64) : u64 (n + 2 ^ 64 - 1) = n - 1 := by
  unfold u64
  omega

/-- No block is drawn from a file without blocks: the draw does not end. -/
theorem pos_of_genrand_pred {n v : ℕ} {raws rest : List ℕ} (hn : n < 2 ^ 64)
    (h : genrand (u64 (n + 2 ^ 64 - 1)) raws = .ok (v, rest)) : 0 < n := by
  have hle := genrand_le h
  unfold u64 int64Max at hle
  omega

variable {conf : Conf} {totb off : ℕ} {raws rest : List ℕ}

theorem getIopositionSeq_block {cont : ℕ} (htotb : totb ≤ conf.totblocks)
    (h : getIopositionSeq totb cont conf.blockSize = .ok off) : ∃ k < totb, off = k * conf.blockSize := by
  unfold getIopositionSeq at h
  split at h
  · cases h
  next h0 =>
    have hlt : cont % totb < totb := Nat.mod_lt _ (Nat.pos_of_ne_zero h0)
    cases h
    exact ⟨cont % totb, hlt, u64_of_lt (conf.offset_lt (by omega))⟩

theorem getIopositionUniform_block (htotb : totb ≤ conf.totblocks)
    (h : getIopositionUniform totb conf.blockSize raws = .ok (off, rest)) : ∃ k < totb, off = k * conf.blockSize := by
  unfold getIopositionUniform at h
  simp only [bind_eq_ok] at h
  obtain ⟨⟨res, raws'⟩, hres, h⟩ := h
  cases h
  have hpos := pos_of_genrand_pred (lt_of_le_of_lt htotb conf.totblocks_lt) hres
  have hlt := genrand_lt hres
  rw [u64_pred hpos (lt_of_le_of_lt htotb conf.totblocks_lt)] at hlt
  exact ⟨res, by omega, u64_of_lt (conf.offset_lt (by omega))⟩

theorem getIopositionTpcc_block {a c : ℕ} (htotb : totb ≤ conf.totblocks)
    (h : getIopositionTpcc a c totb conf.blockSize raws = .ok (off, rest)) :
    ∃ k < totb, off = k * conf.blockSize := by
  unfold getIopositionTpcc at h
  simp only [bind_eq_ok] at h
  obtain ⟨⟨v, raws₁⟩, -, ⟨w, raws₂⟩, hw, h⟩ := h
  have hpos := pos_of_genrand_pred (lt_of_le_of_lt htotb conf.totblocks_lt) hw
  have hy := u64_pred hpos (lt_of_le_of_lt htotb conf.totblocks_lt)
  have hrange : u64 (u64 (totb + 2 ^ 64 - 1) - 0 + 1) = totb := by
    rw [hy, Nat.sub_zero, Nat.sub_add_cancel hpos]
    exact u64_of_lt (lt_of_le_of_lt htotb conf.totblocks_lt)
  rw [hrange, if_neg (by omega)] at h
  cases h
  have hlt : u64 ((v ||| w) + c) % totb < totb := Nat.mod_lt _ hpos
  exact ⟨u64 ((v ||| w) + c) % totb, hlt, u64_of_lt (conf.offset_lt (hlt.le.trans htotb))⟩

/-! ### Regions -/

/-- The blocks a process chooses from: those of the file, or of its region of the device. -/
def Conf.region (conf : Conf) : ℕ :=
  if conf.rawdevice then conf.totblocks / conf.nprocs else conf.totblocks

/-- The first block of the region of a process. -/
def Conf.regionStart (conf : Conf) (idproc : ℕ) : ℕ := if conf.rawdevice then idproc * conf.region else 0

theorem Conf.region_le (conf : Conf) : conf.region ≤ conf.totblocks := by
  unfold Conf.region
  split
  · exact Nat.div_le_self _ _
  · exact le_rfl

theorem Conf.regionBlocks_eq (h : 0 < conf.nprocs) : conf.regionBlocks = .ok conf.region := by
  unfold Conf.regionBlocks Conf.region
  split
  · rw [if_neg (by omega)]
  · rfl

/-- The region of a process ends within the device. -/
theorem Conf.regionStart_add_le {idproc : ℕ} (h : idproc < conf.nprocs) :
    conf.regionStart idproc + conf.region ≤ conf.totblocks := by
  unfold Conf.regionStart Conf.region
  split
  · calc idproc * (conf.totblocks / conf.nprocs) + conf.totblocks / conf.nprocs
        = (idproc + 1) * (conf.totblocks / conf.nprocs) := by ring
      _ ≤ conf.nprocs * (conf.totblocks / conf.nprocs) := Nat.mul_le_mul_right _ h
      _ ≤ conf.totblocks := Nat.mul_div_le _ _
  · omega

/-- A block of the region, as `get_ioposition` finds it, lies behind the start of the region. -/
theorem Conf.regionStart_add {idproc k : ℕ} (hid : idproc < conf.nprocs) (hk : k < conf.region) :
    (if conf.rawdevice then (.ok (u64 (u64 (conf.region * conf.blockSize * idproc) + k * conf.blockSize), rest) :
      Exec (ℕ × List ℕ)) else .ok (k * conf.blockSize, rest))
      = .ok ((conf.regionStart idproc + k) * conf.blockSize, rest) := by
  have hend := Conf.regionStart_add_le hid
  unfold Conf.regionStart at hend ⊢
  by_cases hraw : conf.rawdevice = true
  · rw [if_pos hraw] at hend ⊢
    rw [if_pos hraw]
    have hsum : conf.region * conf.blockSize * idproc + k * conf.blockSize
        = (idproc * conf.region + k) * conf.blockSize := by ring
    have hlt : (idproc * conf.region + k) * conf.blockSize < 2 ^ 64 := conf.offset_lt (by omega)
    rw [u64_of_lt (n := conf.region * conf.blockSize * idproc) (by omega), hsum, u64_of_lt hlt]
  · rw [if_neg hraw, if_neg hraw, Nat.zero_add]

/-- A position found is a block of the region of the process. -/
theorem getIoposition_region {totOps cNurand idproc : ℕ} (hid : idproc < conf.nprocs)
    (h : getIoposition conf totOps cNurand idproc raws = .ok (off, rest)) :
    ∃ k < conf.region, off = (conf.regionStart idproc + k) * conf.blockSize := by
  unfold getIoposition at h
  rw [Conf.regionBlocks_eq (by omega)] at h
  simp only [bind_ok, bind_eq_ok] at h
  obtain ⟨⟨off', raws'⟩, hoff, h⟩ := h
  have hblock : ∃ k < conf.region, off' = k * conf.blockSize := by
    unfold Conf.positionIn at hoff
    split at hoff
    · simp only [bind_eq_ok] at hoff
      obtain ⟨x, hx, hoff⟩ := hoff
      cases hoff
      exact getIopositionSeq_block conf.region_le hx
    · exact getIopositionUniform_block conf.region_le hoff
    · exact getIopositionTpcc_block conf.region_le hoff
  obtain ⟨k, hk, rfl⟩ := hblock
  rw [Conf.regionStart_add hid hk] at h
  cases h
  exact ⟨k, hk, rfl⟩

/-- **Every operation goes to a block of the file.** -/
theorem getIoposition_block {totOps cNurand idproc : ℕ} (hid : idproc < conf.nprocs)
    (h : getIoposition conf totOps cNurand idproc raws = .ok (off, rest)) :
    ∃ k < conf.totblocks, off = k * conf.blockSize := by
  obtain ⟨k, hk, hoff⟩ := getIoposition_region hid h
  have hend := Conf.regionStart_add_le hid
  exact ⟨conf.regionStart idproc + k, by omega, hoff⟩

end Dedisbench
