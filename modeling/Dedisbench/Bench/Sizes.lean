import Dedisbench.Bench.SizeRun

/-!
# The sizes of an accepted run

`main` compares unsigned numbers with zero and then multiplies them by the size of a megabyte.  `sizes_exact_iff` says
for which values of `-s`, `-t`, `filesize` and `blocksize` the sizes it goes on with are what the values mean.
-/

namespace Dedisbench

open Text ExceptRun

/-! ### Numbers that a field holds -/

/-- The integer that a text stands for; a text without one is zero. -/
def number (s : List Char) : ℤ := (signAndDigits s).getD 0

/-- What becomes of an integer when its text is read with `atoll` into a `uint64_t`. -/
def stored (n : ℤ) : ℕ := ofInt64 (max (-2 ^ 63) (min (2 ^ 63 - 1) n))

theorem atoll_eq_stored (s : List Char) : atoll s = stored (number s) := rfl

theorem stored_of_nonneg {n : ℤ} (hn : 0 ≤ n) : (stored n : ℤ) = min (2 ^ 63 - 1) n := by
  unfold stored ofInt64
  omega

theorem atoi_of_lt {s : List Char} (hn : 0 ≤ number s) (hlt : number s < 2 ^ 31) : atoi s = number s := by
  have hstrtol : strtol s = number s := by
    show max (-2 ^ 63) (min (2 ^ 63 - 1) (number s)) = number s
    omega
  rw [atoi, hstrtol, toInt32, ofInt64]
  split <;> omega

section Megabytes

variable {n : ℤ} {blockSize : ℕ}

/-- Megabytes in bytes: the product does not wrap if the number is below `2 ^ 44`. -/
theorem u64_stored_of_lt (hn : 0 < n) (hlt : n < 2 ^ 44) : (u64 (stored n * 2 ^ 20) : ℤ) = n * 2 ^ 20 := by
  have hstored := stored_of_nonneg hn.le
  have hfits : stored n * 2 ^ 20 < 2 ^ 64 := by omega
  rw [u64_of_lt hfits]
  omega

theorem megabytes_iff (hn : 0 < n) : (u64 (stored n * 2 ^ 20) : ℤ) = n * 2 ^ 20 ↔ n < 2 ^ 44 := by
  refine ⟨fun h => ?_, u64_stored_of_lt hn⟩
  have hlt : u64 (stored n * 2 ^ 20) < 2 ^ 64 := Nat.mod_lt _ (by norm_num)
  omega

/-- Megabytes in blocks. -/
theorem megabytes_div_iff (hn : 0 < n) (hpos : 0 < blockSize) (hblock : blockSize < 2 ^ 64) :
    (u64 (stored n * 2 ^ 20) / blockSize : ℕ) = n * 2 ^ 20 / (blockSize : ℤ) ↔ n < 2 ^ 44 := by
  constructor
  · intro h
    by_contra hge
    have hstored := stored_of_nonneg hn.le
    -- what is lost when the product wraps is at least a block
    have hless : u64 (stored n * 2 ^ 20) / blockSize < stored n * 2 ^ 20 / blockSize :=
      wrapped_div_lt hpos hblock (by omega)
    have hle : ((stored n * 2 ^ 20 : ℕ) : ℤ) / blockSize ≤ n * 2 ^ 20 / (blockSize : ℤ) :=
      Int.ediv_le_ediv (by exact_mod_cast hpos) (by omega)
    rw [← Int.natCast_ediv, ← h] at hle
    omega
  · intro hlt
    rw [Int.natCast_ediv, u64_stored_of_lt hn hlt]

end Megabytes

/-! ### What the values stand for -/

/-- The argument of a `-s`. -/
def Opt.sizeArg : Opt → Option (List Char)
  | .s arg => some arg
  | _ => none

/-- The argument of a `-t`. -/
def Opt.timeArg : Opt → Option (List Char)
  | .t arg => some arg
  | _ => none

/-- The argument of the last `-s`. -/
def lastSize (opts : List Opt) : Option (List Char) := (opts.filterMap Opt.sizeArg).getLast?

/-- The argument of the last `-t`. -/
def lastTime (opts : List Opt) : Option (List Char) := (opts.filterMap Opt.timeArg).getLast?

/-- The megabytes of a file: the last value for them, or the default. -/
def filesizeMb (env : Environment) (opts : List Opt) : ℤ :=
  ((lastValue .filesize (env.entries (filename opts))).map number).getD 2048

theorem given_size (opts : List Opt) : ((given opts).flagTerminationSize, (given opts).numberOps) =
    ((lastSize opts).map fun arg => (true, stored (number arg))).getD (false, 0) := by
  refine foldl_last (f := NecessaryConfs.set) (φ := fun c => (c.flagTerminationSize, c.numberOps)) (fun c o => ?_)
    opts .init
  cases o with
  | n arg =>
    unfold NecessaryConfs.set NecessaryConfs.setRatio
    dsimp only
    split <;> rfl
  | _ => rfl

theorem given_time (opts : List Opt) : ((given opts).flagTerminationTime, (given opts).timeToRun) =
    ((lastTime opts).map fun arg => (true, atoi arg)).getD (false, 0) := by
  refine foldl_last (f := NecessaryConfs.set) (φ := fun c => (c.flagTerminationTime, c.timeToRun)) (fun c o => ?_)
    opts .init
  cases o with
  | n arg =>
    unfold NecessaryConfs.set NecessaryConfs.setRatio
    dsimp only
    split <;> rfl
  | _ => rfl

theorem given_of_lastSize {opts : List Opt} {arg : List Char} (h : lastSize opts = some arg) :
    (given opts).flagTerminationSize = true ∧ (given opts).numberOps = stored (number arg) := by
  have hgiven := given_size opts
  rw [h] at hgiven
  exact Prod.mk.inj hgiven

theorem given_of_lastTime {opts : List Opt} {arg : List Char} (h : lastTime opts = some arg) :
    (given opts).flagTerminationTime = true ∧ (given opts).timeToRun = atoi arg := by
  have hgiven := given_time opts
  rw [h] at hgiven
  exact Prod.mk.inj hgiven

theorem exists_lastTime {opts : List Opt} (h : (given opts).flagTerminationTime = true) :
    ∃ arg, lastTime opts = some arg := by
  have hgiven := given_time opts
  cases hlast : lastTime opts with
  | none =>
    rw [hlast] at hgiven
    exact absurd (h.symm.trans (Prod.mk.inj hgiven).1) (by simp)
  | some arg => exact ⟨arg, rfl⟩

theorem read_filesize {env : Environment} {time mixed : Bool} {opts : List Opt} {o : OptionalConfs}
    (h : fileConfs env time mixed (filename opts) (.init env.now) = .ok o) :
    o.filesize = stored (filesizeMb env opts) := by
  rw [fileConfs_filesize h, filesizeMb]
  cases lastValue .filesize (env.entries (filename opts)) with
  | none => rfl
  | some text => exact atoll_eq_stored text

/-! ### What `main` makes of them -/

/-- The sizes that `get_generator` is called with; it takes an `unsigned int` for each. -/
structure GeneratorSizes where
  blockSize : ℕ
  blocosToGenerate : ℕ
deriving DecidableEq

/-- The call of `get_generator`. -/
def UserConfs.getGenerator (conf : UserConfs) : GeneratorSizes := ⟨u32 conf.blockSize, u32 conf.totblocks⟩

/-- The sizes of a configuration are what the values stand for, `u` being what was read of them. -/
structure SizesExact (env : Environment) (opts : List Opt) (u conf : UserConfs) : Prop where
  size : ∀ arg, lastSize opts = some arg →
    0 < number arg ∧ (conf.numberOps : ℤ) = number arg * 2 ^ 20 / u.blockSize
  time : ∀ arg, lastTime opts = some arg → 0 < number arg ∧ conf.timeToRun = number arg * 60
  filesize : 0 < filesizeMb env opts ∧ (conf.filesize : ℤ) = filesizeMb env opts * 2 ^ 20
  blockSize : 0 < u.blockSize
  totblocks : (conf.totblocks : ℤ) = filesizeMb env opts * 2 ^ 20 / u.blockSize
  generator : conf.getGenerator = ⟨u.blockSize, conf.totblocks⟩

section Conversion

variable {u conf : UserConfs}

/-- What the conversions make of the sizes. -/
structure ConvertedSizes (u conf : UserConfs) : Prop where
  blockSize : conf.blockSize = u.blockSize
  filesize : conf.filesize = u64 (u.filesize * 2 ^ 20)
  totblocks : conf.totblocks = conf.filesize / u.blockSize
  numberOps : u.flagTerminationSize = true → conf.numberOps = u64 (u.numberOps * 2 ^ 20) / u.blockSize
  timeToRun : u.flagTerminationTime = true → u.timeToRun * 60 < 2 ^ 31 ∧ conf.timeToRun = u.timeToRun * 60

theorem sizes_of_convertConf (h : convertConf u = .ok conf) : ConvertedSizes u conf := by
  have hbytes (n : ℕ) : n * 1024 * 1024 = n * 2 ^ 20 := Nat.mul_assoc n 1024 1024
  obtain ⟨htime, rfl⟩ := convertConf_eq_ok.mp h
  refine ⟨rfl, congrArg u64 (hbytes _), rfl, fun hsize => ?_, fun hflag => ⟨(htime hflag).2, if_pos hflag⟩⟩
  rw [← hbytes]
  exact if_pos hsize

theorem blockSize_of_checkConf (h : checkConf u = .ok ()) : u.blockSize ≠ 0 := by
  intro hzero
  rw [checkConf, if_pos hzero] at h
  split_ifs at h

/-- The generator gets the sizes as they are if they fit. -/
theorem getGenerator_iff (hblock : conf.blockSize = u.blockSize) :
    conf.getGenerator = ⟨u.blockSize, conf.totblocks⟩ ↔ u.blockSize < 2 ^ 32 ∧ conf.totblocks < 2 ^ 32 := by
  rw [UserConfs.getGenerator, hblock, GeneratorSizes.mk.injEq, u32, u32, Nat.mod_eq_iff_lt (by norm_num),
    Nat.mod_eq_iff_lt (by norm_num)]

end Conversion

/-! ### When the sizes are exact -/

section Exact

variable {env : Environment} {opts : List Opt} {o : OptionalConfs} {conf : UserConfs}

/-- Minutes that fit are read as they are. -/
theorem timeToRun_of_fits (htime : ∀ arg, lastTime opts = some arg → 0 < number arg ∧ number arg * 60 < 2 ^ 31)
    {arg : List Char} (h : lastTime opts = some arg) : (given opts).timeToRun = number arg := by
  obtain ⟨hn, hlt⟩ := htime arg h
  rw [(given_of_lastTime h).2, atoi_of_lt hn.le (by omega)]

/-- Minutes that fit are converted. -/
theorem exists_convertConf (htime : ∀ arg, lastTime opts = some arg → 0 < number arg ∧ number arg * 60 < 2 ^ 31) :
    ∃ conf, convertConf ⟨given opts, o, 0⟩ = .ok conf := by
  refine ⟨_, convertConf_eq_ok.mpr ⟨fun hflag => ?_, rfl⟩⟩
  obtain ⟨arg, harg⟩ := exists_lastTime hflag
  obtain ⟨hn, hlt⟩ := htime arg harg
  show -2 ^ 31 ≤ (given opts).timeToRun * 60 ∧ (given opts).timeToRun * 60 < 2 ^ 31
  rw [timeToRun_of_fits htime harg]
  exact ⟨by omega, hlt⟩

variable (hs : ConvertedSizes ⟨given opts, o, 0⟩ conf) (hfile : o.filesize = stored (filesizeMb env opts))
  (hpos : 0 < o.blockSize) (hblock : o.blockSize < 2 ^ 64)

include hs hfile hpos hblock

/-- What exact sizes say about the values. -/
theorem SizesExact.fits (hexact : SizesExact env opts ⟨given opts, o, 0⟩ conf) :
    (∀ arg, lastTime opts = some arg → 0 < number arg ∧ number arg * 60 < 2 ^ 31) ∧
      (∀ arg, lastSize opts = some arg → 0 < number arg ∧ number arg < 2 ^ 44) ∧
      (0 < filesizeMb env opts ∧ filesizeMb env opts < 2 ^ 44) ∧
      o.blockSize < 2 ^ 32 ∧ filesizeMb env opts * 2 ^ 20 / o.blockSize < 2 ^ 32 := by
  have hgen := (getGenerator_iff hs.blockSize).mp hexact.generator
  refine ⟨fun arg harg => ?_, fun arg harg => ?_, ⟨hexact.filesize.1, ?_⟩, hgen.1, ?_⟩
  · obtain ⟨hn, hrun⟩ := hexact.time arg harg
    obtain ⟨hlt, heq⟩ := hs.timeToRun (given_of_lastTime harg).1
    exact ⟨hn, by rw [← hrun, heq]; exact hlt⟩
  · obtain ⟨hn, hops⟩ := hexact.size arg harg
    obtain ⟨hflag, hstored⟩ := given_of_lastSize harg
    refine ⟨hn, (megabytes_div_iff hn hpos hblock).mp ?_⟩
    rw [← hops, hs.numberOps hflag, hstored]
  · rw [← megabytes_iff hexact.filesize.1, ← hexact.filesize.2, hs.filesize, hfile]
  · rw [← hexact.totblocks]
    exact_mod_cast hgen.2

/-- Values that fit are converted to exact sizes. -/
theorem ConvertedSizes.exact
    (htime : ∀ arg, lastTime opts = some arg → 0 < number arg ∧ number arg * 60 < 2 ^ 31)
    (hsize : ∀ arg, lastSize opts = some arg → 0 < number arg ∧ number arg < 2 ^ 44)
    (hfits : 0 < filesizeMb env opts ∧ filesizeMb env opts < 2 ^ 44) (hblock32 : o.blockSize < 2 ^ 32)
    (hblocks32 : filesizeMb env opts * 2 ^ 20 / o.blockSize < 2 ^ 32) :
    SizesExact env opts ⟨given opts, o, 0⟩ conf := by
  have hbytes : (conf.filesize : ℤ) = filesizeMb env opts * 2 ^ 20 := by
    rw [hs.filesize, hfile]
    exact u64_stored_of_lt hfits.1 hfits.2
  have hblocks : (conf.totblocks : ℤ) = filesizeMb env opts * 2 ^ 20 / o.blockSize := by
    rw [hs.totblocks, Int.natCast_ediv, hbytes]
  refine ⟨fun arg harg => ?_, fun arg harg => ?_, ⟨hfits.1, hbytes⟩, hpos, hblocks, ?_⟩
  · obtain ⟨hn, hlt⟩ := hsize arg harg
    obtain ⟨hflag, hstored⟩ := given_of_lastSize harg
    rw [hs.numberOps hflag, hstored]
    exact ⟨hn, (megabytes_div_iff hn hpos hblock).mpr hlt⟩
  · refine ⟨(htime arg harg).1, ?_⟩
    rw [(hs.timeToRun (given_of_lastTime harg).1).2, timeToRun_of_fits htime harg]
  · refine (getGenerator_iff hs.blockSize).mpr ⟨hblock32, ?_⟩
    rw [← hblocks] at hblocks32
    exact_mod_cast hblocks32

end Exact

/-- **The sizes are exact**, for what every command line and configuration file give and the checks let through, if the
values are positive, the minutes fit an `int` in seconds, the megabytes fit 64 bits in bytes, and a block and the number
of blocks of a file fit an `unsigned int`. -/
theorem sizes_exact_iff {env : Environment} {argv : List (List Char)} {u : UserConfs} (h : readConf env argv = .ok u)
    (hcheck : checkConf u = .ok ()) :
    (∃ conf, convertConf u = .ok conf ∧ SizesExact env (options argv) u conf) ↔
      (∀ arg, lastTime (options argv) = some arg → 0 < number arg ∧ number arg * 60 < 2 ^ 31) ∧
        (∀ arg, lastSize (options argv) = some arg → 0 < number arg ∧ number arg < 2 ^ 44) ∧
        (0 < filesizeMb env (options argv) ∧ filesizeMb env (options argv) < 2 ^ 44) ∧
        u.blockSize < 2 ^ 32 ∧ filesizeMb env (options argv) * 2 ^ 20 / u.blockSize < 2 ^ 32 := by
  have hpos : 0 < u.blockSize := Nat.pos_of_ne_zero (blockSize_of_checkConf hcheck)
  obtain ⟨o, time, mixed, ho, rfl⟩ := read_of_readConf h
  have hblock : o.blockSize < 2 ^ 64 := (fileConfs_blockSize ho).lt (show 4096 < 2 ^ 64 by norm_num)
  have hfile : o.filesize = stored (filesizeMb env (options argv)) := read_filesize ho
  constructor
  · rintro ⟨conf, hconf, hexact⟩
    exact hexact.fits (sizes_of_convertConf hconf) hfile hpos hblock
  · rintro ⟨htime, hsize, hfits, hblock32, hblocks32⟩
    obtain ⟨conf, hconf⟩ := exists_convertConf (o := o) htime
    have hs := sizes_of_convertConf hconf
    exact ⟨conf, hconf, hs.exact hfile hpos hblock htime hsize hfits hblock32 hblocks32⟩

/-- A megabyte of operations, on files of the size that is the default. -/
theorem oneMegabyte_exact : ∃ u, readConf twoConfigs (["-p", "-w", "-s1", "-fc"].map String.toList) = .ok u ∧
    checkConf u = .ok () ∧ ∃ conf, convertConf u = .ok conf ∧
      SizesExact twoConfigs (options (["-p", "-w", "-s1", "-fc"].map String.toList)) u conf := by
  have h : okWith (readConf twoConfigs (["-p", "-w", "-s1", "-fc"].map String.toList)) fun u =>
      checkConf u = .ok () ∧ u.blockSize = 4096 := by
    decide +kernel
  obtain ⟨u, hu, h⟩ := exists_of_okWith h
  obtain ⟨hcheck, hblock⟩ := of_decide_eq_true h
  have htime : lastTime (options (["-p", "-w", "-s1", "-fc"].map String.toList)) = none := by decide +kernel
  have hsize : lastSize (options (["-p", "-w", "-s1", "-fc"].map String.toList)) = some ['1'] := by decide +kernel
  have hfile : filesizeMb twoConfigs (options (["-p", "-w", "-s1", "-fc"].map String.toList)) = 2048 := by
    decide +kernel
  have hone : number ['1'] = 1 := by decide +kernel
  refine ⟨u, hu, hcheck, (sizes_exact_iff hu hcheck).mpr ⟨?_, ?_, ?_, ?_⟩⟩
  · rw [htime]
    exact fun arg harg => nomatch harg
  · rw [hsize]
    rintro _ ⟨⟩
    rw [hone]
    norm_num
  · rw [hfile]
    norm_num
  · rw [hfile, hblock]
    norm_num

/-- Minus one megabyte is accepted. -/
theorem minusOne_not_exact : ∃ u, readConf twoConfigs (["-p", "-w", "-s-1", "-fc"].map String.toList) = .ok u ∧
    checkConf u = .ok () ∧ ¬ ∃ conf, convertConf u = .ok conf ∧
      SizesExact twoConfigs (options (["-p", "-w", "-s-1", "-fc"].map String.toList)) u conf := by
  have h : okWith (readConf twoConfigs (["-p", "-w", "-s-1", "-fc"].map String.toList)) fun u =>
      checkConf u = .ok () := by
    decide +kernel
  obtain ⟨u, hu, h⟩ := exists_of_okWith h
  have hsize : lastSize (options (["-p", "-w", "-s-1", "-fc"].map String.toList)) = some ['-', '1'] := by
    decide +kernel
  refine ⟨u, hu, of_decide_eq_true h, ?_⟩
  rintro ⟨conf, -, hexact⟩
  exact absurd (hexact.size _ hsize).1 (by decide +kernel)

end Dedisbench
