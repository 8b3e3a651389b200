import Dedisbench.Bench.Loop

/-!
# The order and the rate of the operations

Both the block of a sequential access and the throttle of a nominal test go by `tot_ops`, which counts an
operation only after the ramp-up.  So the order and the rate are right as far as every operation but the
last is counted: `sequential_iff` and `rate_never_exceeded`.
-/

namespace Dedisbench

open ExceptRun

variable {conf : Conf} {r : RunConf} {cNurand idproc : ℕ} {s₀ s s' : LoopState} {ticks : List Tick}

/-! ### What was issued -/

/-- The operation was issued with `n` operations counted. -/
structure IssuedAt (conf : Conf) (r : RunConf) (cNurand idproc n : ℕ) (op : Issued) : Prop where
  offset : ∃ raws rest, getIoposition conf n cNurand idproc raws = .ok (op.offset, rest)
  elapsed_pos : 0 < op.timeElapsed
  throttle : r.testtype = .peak ∨ (u64 (n * r.nproc) : ℚ) / op.timeElapsed < r.ratio

/-- The operations counted among the first `k`, as `tot_ops` has them. -/
def countedBefore (issued : List Issued) (k : ℕ) : ℕ := u64 ((issued.take k).countP Issued.measured)

/-- The invariant of the loop: `tot_ops` counts the measured operations, and every operation was issued by
the count of those before it. -/
structure LoopInv (conf : Conf) (r : RunConf) (cNurand idproc : ℕ) (s : LoopState) : Prop where
  totOps : s.stat.totOps = u64 (s.issued.countP Issued.measured)
  issued : ∀ k op, s.issued[k]? = some op → IssuedAt conf r cNurand idproc (countedBefore s.issued k) op

theorem u64_add_one (n : ℕ) : u64 (u64 n + 1) = u64 (n + 1) := by simp [u64]

theorem LoopInv.issue {t : Tick} (hs : LoopInv conf r cNurand idproc s) (hpos : 0 < s.timeElapsed)
    (hissues : r.issues s = true) (h : s.issue conf r cNurand idproc t = .ok s') :
    LoopInv conf r cNurand idproc s' := by
  obtain ⟨off, rest, hoff, hissued, htotOps, -⟩ := LoopState.issue_eq_ok h
  constructor
  · rw [htotOps, hissued, hs.totOps, List.countP_append, List.countP_singleton]
    cases s.measured
    · simp
    · simp [u64_add_one]
  intro k op hk
  rw [hissued] at hk ⊢
  rcases Nat.lt_or_ge k s.issued.length with hlt | hge
  · rw [List.getElem?_append_left hlt] at hk
    rw [countedBefore, List.take_append_of_le_length hlt.le]
    exact hs.issued k op hk
  · -- the operation issued now
    rw [List.getElem?_append_right hge] at hk
    have hlen : k = s.issued.length := by
      have := (List.getElem?_eq_some_iff.mp hk).1
      simp only [List.length_singleton] at this
      omega
    rw [hlen, Nat.sub_self] at hk
    cases hk
    rw [countedBefore, hlen, List.take_left, ← hs.totOps]
    refine ⟨⟨_, _, hoff⟩, hpos, ?_⟩
    unfold RunConf.issues at hissues
    simpa using hissues

/-- **Every round keeps the invariant.** -/
theorem LoopInv.step {t : Tick} (hs : LoopInv conf r cNurand idproc s)
    (h : loopStep conf r cNurand idproc s t = .ok s') : LoopInv conf r cNurand idproc s' := by
  have advance : ∀ s₁ : LoopState, LoopInv conf r cNurand idproc s₁ → LoopInv conf r cNurand idproc (s₁.advance r t) :=
    fun s₁ h₁ => ⟨h₁.totOps, h₁.issued⟩
  rcases loopStep_eq_ok h with rfl | ⟨hpos, s₁, rfl, rfl | ⟨hissues, hissue⟩⟩
  · exact hs
  · exact advance _ hs
  · exact advance _ (hs.issue hpos hissues hissue)

theorem loopInit_eq_ok {tim base : ℕ} (h : loopInit r tim base = .ok s) :
    s.stat = .init ∧ s.issued = [] ∧ s.base = base ∧ s.timeElapsed = 1 := by
  unfold loopInit at h
  simp only [bind_eq_ok] at h
  obtain ⟨⟨beginTime, endTime, ru⟩, -, ⟨beginSize, endSize⟩, -, h⟩ := h
  split at h
  · cases h
  · cases h
    exact ⟨rfl, rfl, rfl, rfl⟩

/-- The start of the loop: a test that ends by size has no ramp-up, and one that does not ends by time. -/
theorem loopInit_limits {tim base : ℕ} (h : loopInit r tim base = .ok s) :
    (r.flagTerminationTime = true → s.beginTime = seconds tim) ∧
      (r.flagTerminationSize = true ∧ s.ruBegin = 0 ∨ r.flagTerminationSize = false ∧
        r.flagTerminationTime = true ∧ s.ruBegin = ofInt64 (seconds tim + r.start * 30)) := by
  unfold loopInit RunConf.timeLimits at h
  simp only [bind_eq_ok] at h
  obtain ⟨limits, hlimits, ⟨beginSize, endSize⟩, -, h⟩ := h
  have hru : r.flagTerminationTime = true → limits.1 = seconds tim ∧
      limits.2.2 = some (ofInt64 (seconds tim + r.start * 30)) := by
    intro htime
    rw [if_pos htime] at hlimits
    simp only [bind_eq_ok] at hlimits
    obtain ⟨rampUp, hrampUp, coolDown, -, hlimits⟩ := hlimits
    obtain ⟨-, rfl⟩ := cInt_eq_ok.mp hrampUp
    cases hlimits
    exact ⟨rfl, rfl⟩
  by_cases hsize : r.flagTerminationSize = true
  · rw [if_pos hsize] at h
    cases h
    exact ⟨fun htime => (hru htime).1, .inl ⟨hsize, rfl⟩⟩
  · rw [if_neg hsize] at h
    by_cases htime : r.flagTerminationTime = true
    · rw [(hru htime).2] at h
      cases h
      exact ⟨fun htime => (hru htime).1, .inr ⟨by simpa using hsize, htime, rfl⟩⟩
    · rw [if_neg htime] at hlimits
      cases hlimits
      cases h

theorem loopRun_inv {tim base : ℕ} (hinit : loopInit r tim base = .ok s₀)
    (h : loopRun conf r cNurand idproc ticks s₀ = .ok s) : LoopInv conf r cNurand idproc s := by
  obtain ⟨hstat, hissued, -, -⟩ := loopInit_eq_ok hinit
  refine foldlM_inv (P := LoopInv conf r cNurand idproc) (fun _ _ _ _ hs h => hs.step h) ⟨?_, ?_⟩ h
  · rw [hstat, hissued]
    rfl
  · intro k op hk
    rw [hissued] at hk
    cases hk

/-! ### When nothing is left out -/

/-- With every operation but the last measured, the count before an operation is its number. -/
theorem countedBefore_eq {issued : List Issued} {k : ℕ} (h : ∀ op ∈ issued.dropLast, op.measured = true)
    (hk : k < issued.length) : countedBefore issued k = u64 k := by
  have hmem : ∀ op ∈ issued.take k, op.measured = true := by
    intro op hop
    refine h op ?_
    rw [List.dropLast_eq_take]
    exact (List.take_prefix_take_left (by omega)).subset hop
  rw [countedBefore, List.countP_eq_length.mpr hmem, List.length_take_of_le hk.le]

/-- There is no ramp-up: the test ends by size, or its ramp-up has no length. -/
def RunConf.NoRampUp (r : RunConf) : Prop := r.flagTerminationSize = true ∨ r.start = 0

theorem ofInt64_natCast_le (n : ℕ) : ofInt64 n ≤ n := by
  unfold ofInt64
  omega

/-- Without a ramp-up, measuring begins no later than the first round. -/
theorem ruBegin_le {tim base : ℕ} (hr : r.NoRampUp) (hinit : loopInit r tim base = .ok s) :
    s.ruBegin ≤ s.beginTime ∧ (r.flagTerminationTime = true → s.ruBegin ≤ seconds tim) := by
  obtain ⟨hbegin, ⟨-, hru⟩ | ⟨hsize, htime, hru⟩⟩ := loopInit_limits hinit
  · rw [hru]
    exact ⟨Nat.zero_le _, fun _ => Nat.zero_le _⟩
  · have hstart : r.start = 0 := hr.resolve_left (by simp [hsize])
    have hle : s.ruBegin ≤ seconds tim := by
      rw [hru, hstart, Int.zero_mul, Int.add_zero]
      exact ofInt64_natCast_le _
    exact ⟨hbegin htime ▸ hle, fun _ => hle⟩

/-- Without a ramp-up every operation is measured. -/
theorem measured_of_noRampUp {tim base : ℕ} (hr : r.NoRampUp) (htim : tim ≤ base) (hclock : ClockFrom base ticks)
    (hinit : loopInit r tim base = .ok s₀) (h : loopRun conf r cNurand idproc ticks s₀ = .ok s) :
    ∀ op ∈ s.issued, op.measured = true := by
  obtain ⟨-, hissued, -, -⟩ := loopInit_eq_ok hinit
  obtain ⟨hru, hrutime⟩ := ruBegin_le hr hinit
  refine (foldlM_inv (P := fun s => s.ruBegin = s₀.ruBegin ∧ s.ruBegin ≤ s.beginTime ∧
    ∀ op ∈ s.issued, op.measured = true) ?_ ⟨rfl, hru, by rw [hissued]; simp⟩ h).2.2
  intro s t s' ht ⟨hconst, hle, hall⟩ hstep
  have hnext : r.flagTerminationTime = true → s.ruBegin ≤ seconds t.tim := by
    intro hflag
    rw [hconst]
    exact (hrutime hflag).trans (Nat.div_le_div_right (htim.trans (hclock.le_tim t ht)))
  have advance : ∀ s₁ : LoopState, s₁.ruBegin = s.ruBegin → s₁.beginTime = s.beginTime →
      (s₁.advance r t).ruBegin ≤ (s₁.advance r t).beginTime := by
    intro s₁ hru₁ hbegin₁
    simp only [LoopState.advance, hru₁, hbegin₁]
    split
    next hflag => exact hnext hflag
    next => exact hle
  rcases loopStep_eq_ok hstep with rfl | ⟨-, s₁, rfl, rfl | ⟨-, hissue⟩⟩
  · exact ⟨hconst, hle, hall⟩
  · exact ⟨hconst, advance _ rfl rfl, hall⟩
  · obtain ⟨off, rest, -, hissued₁, -, hbegin₁, hru₁, -⟩ := LoopState.issue_eq_ok hissue
    refine ⟨hru₁.trans hconst, advance _ hru₁ hbegin₁, ?_⟩
    intro op hop
    rcases List.mem_append.mp (hissued₁ ▸ hop : op ∈ s.issued ++ _) with hop | hop
    · exact hall op hop
    · rw [List.mem_singleton.mp hop]
      exact decide_eq_true hle

/-! ### Sequential access -/

/-- The `k`-th operation goes to block `k` of the region, modulo its size. -/
def Sequential (conf : Conf) (idproc : ℕ) (s : LoopState) : Prop :=
  ∀ k op, s.issued[k]? = some op → op.offset / conf.blockSize = conf.regionStart idproc + k % conf.region

theorem LoopInv.block_eq {k : ℕ} {op : Issued} (hs : LoopInv conf r cNurand idproc s)
    (hacc : conf.accesstype = .sequential) (hid : idproc < conf.nprocs) (hk : s.issued[k]? = some op) :
    op.offset / conf.blockSize = conf.regionStart idproc + countedBefore s.issued k % conf.region := by
  obtain ⟨raws, rest, hoff⟩ := (hs.issued k op hk).offset
  exact Conf.block_sequential hid hacc hoff

/-- A block is followed by itself only in a region of one block. -/
theorem eq_one_of_mod_succ {k n : ℕ} (h : k % n = (k + 1) % n) : n = 1 := by
  have hmod := Nat.sub_mod_eq_zero_of_mod_eq h.symm
  rw [Nat.add_sub_cancel_left] at hmod
  exact Nat.dvd_one.mp (Nat.dvd_of_mod_eq_zero hmod)

/-- In order, and with more than one block, every operation but the last is counted: the operation after one
that is not would go to the same block. -/
theorem LoopInv.measured_of_sequential (hs : LoopInv conf r cNurand idproc s)
    (hacc : conf.accesstype = .sequential) (hid : idproc < conf.nprocs) (hone : conf.region ≠ 1)
    (hseq : Sequential conf idproc s) : ∀ op ∈ s.issued.dropLast, op.measured = true := by
  have hmod : ∀ k < s.issued.length, countedBefore s.issued k % conf.region = k % conf.region := by
    intro k hk
    have hget := List.getElem?_eq_getElem hk
    exact Nat.add_left_cancel ((hs.block_eq hacc hid hget).symm.trans (hseq k _ hget))
  -- by induction on the number of operations looked at
  have hprefix : ∀ k < s.issued.length, ∀ op ∈ s.issued.take k, op.measured = true := by
    intro k
    induction k with
    | zero => intro _ op hop; rw [List.take_zero] at hop; cases hop
    | succ k ih =>
      intro hk op hop
      have hold := ih (Nat.lt_of_succ_lt hk)
      rw [List.take_add_one, List.getElem?_eq_getElem (Nat.lt_of_succ_lt hk)] at hop
      rcases List.mem_append.mp hop with hop | hop
      · exact hold op hop
      · have hop : op = s.issued[k] := by simpa using hop
        by_contra hnot
        have hsame : countedBefore s.issued (k + 1) = countedBefore s.issued k := by
          rw [countedBefore, List.take_add_one, List.getElem?_eq_getElem (Nat.lt_of_succ_lt hk), List.countP_append,
            Option.toList_some, List.countP_singleton, if_neg (hop ▸ hnot), Nat.add_zero, countedBefore]
        have hnext := hmod (k + 1) hk
        rw [hsame, hmod k (Nat.lt_of_succ_lt hk)] at hnext
        exact hone (eq_one_of_mod_succ hnext)
  intro op hop
  rw [List.dropLast_eq_take] at hop
  rcases Nat.eq_zero_or_pos s.issued.length with h0 | hpos
  · rw [List.eq_nil_of_length_eq_zero h0] at hop
    cases hop
  · exact hprefix _ (by omega) op hop

/-- **Sequential mode is sequential** exactly if every operation but the last is counted, which without a
ramp-up they all are (and as long as `tot_ops` does not wrap, or wraps at a multiple of the region). -/
theorem sequential_iff {tim base : ℕ} (hacc : conf.accesstype = .sequential) (hid : idproc < conf.nprocs)
    (hinit : loopInit r tim base = .ok s₀) (hrun : loopRun conf r cNurand idproc ticks s₀ = .ok s) :
    (Sequential conf idproc s ↔ conf.region = 1 ∨
      (∀ op ∈ s.issued.dropLast, op.measured = true) ∧ (s.issued.length ≤ 2 ^ 64 ∨ conf.region ∣ 2 ^ 64)) ∧
    (r.NoRampUp → tim ≤ base → ClockFrom base ticks → s.issued.length ≤ 2 ^ 64 → Sequential conf idproc s) := by
  have hinv := loopRun_inv hinit hrun
  have hiff : Sequential conf idproc s ↔ conf.region = 1 ∨
      (∀ op ∈ s.issued.dropLast, op.measured = true) ∧ (s.issued.length ≤ 2 ^ 64 ∨ conf.region ∣ 2 ^ 64) := by
    constructor
    · intro hseq
      by_cases hone : conf.region = 1
      · exact .inl hone
      have hmeasured := hinv.measured_of_sequential hacc hid hone hseq
      refine .inr ⟨hmeasured, ?_⟩
      rcases Nat.lt_or_ge (2 ^ 64) s.issued.length with hlt | hle
      · -- the count has wrapped to zero
        have hget := List.getElem?_eq_getElem hlt
        have hblock := Nat.add_left_cancel ((hinv.block_eq hacc hid hget).symm.trans (hseq _ _ hget))
        rw [countedBefore_eq hmeasured hlt, u64, Nat.mod_self, Nat.zero_mod] at hblock
        exact .inr (Nat.dvd_of_mod_eq_zero hblock.symm)
      · exact .inl hle
    · intro hcond k op hk
      rw [hinv.block_eq hacc hid hk]
      rcases hcond with hone | ⟨hmeasured, hlen⟩
      · rw [hone, Nat.mod_one, Nat.mod_one]
      have hlt := (List.getElem?_eq_some_iff.mp hk).1
      rw [countedBefore_eq hmeasured hlt]
      rcases hlen with hlen | hdvd
      · rw [u64_of_lt (by omega)]
      · rw [u64, Nat.mod_mod_of_dvd _ hdvd]
  refine ⟨hiff, fun hr htim hclock hlen => hiff.mpr (.inr ⟨?_, .inl hlen⟩)⟩
  intro op hop
  exact measured_of_noRampUp hr htim hclock hinit hrun op (List.dropLast_subset _ hop)

/-- Files of twenty blocks, accessed in order. -/
def inOrder : Conf := { twoRegions with rawdevice := false, accesstype := .sequential }

/-- A peak test of a minute, with a ramp-up of half a minute for each unit of `start`. -/
def peakMinute (start : ℤ) : RunConf := ⟨.peak, 1, 1, true, false, 60, 0, start, 0⟩

/-- A round within the first second. -/
def firstSecond (t : ℕ) : Tick := ⟨[], t, t, t, t⟩

theorem inOrder_sequential : ∃ s₀ s, loopInit (peakMinute 0) 0 0 = .ok s₀ ∧
    loopRun inOrder (peakMinute 0) 0 0 [firstSecond 1, firstSecond 2] s₀ = .ok s ∧ Sequential inOrder 0 s := by
  have h : okWith (loopInit (peakMinute 0) 0 0) fun s₀ =>
      okWith (loopRun inOrder (peakMinute 0) 0 0 [firstSecond 1, firstSecond 2] s₀) fun s => s.issued.length = 2 := by
    decide +kernel
  obtain ⟨s₀, hinit, h⟩ := exists_of_okWith h
  obtain ⟨s, hrun, hlen⟩ := exists_of_okWith h
  have hlen : s.issued.length = 2 := of_decide_eq_true hlen
  refine ⟨s₀, s, hinit, hrun, (sequential_iff rfl (by decide) hinit hrun).2 (.inr rfl) le_rfl ?_ (by omega)⟩
  simp [ClockFrom, firstSecond]

/-- During the ramp-up every operation goes to the first block. -/
theorem rampUp_not_sequential : ∃ s₀ s, loopInit (peakMinute 1) 0 0 = .ok s₀ ∧
    loopRun inOrder (peakMinute 1) 0 0 [firstSecond 1, firstSecond 2] s₀ = .ok s ∧
    ClockFrom 0 [firstSecond 1, firstSecond 2] ∧ s.issued.map Issued.offset = [0, 0] ∧ ¬ Sequential inOrder 0 s := by
  have h : okWith (loopInit (peakMinute 1) 0 0) fun s₀ =>
      okWith (loopRun inOrder (peakMinute 1) 0 0 [firstSecond 1, firstSecond 2] s₀) fun s =>
        s.issued = [⟨0, 1, false⟩, ⟨0, 2, false⟩] := by
    decide +kernel
  obtain ⟨s₀, hinit, h⟩ := exists_of_okWith h
  obtain ⟨s, hrun, hissued⟩ := exists_of_okWith h
  have hissued : s.issued = [⟨0, 1, false⟩, ⟨0, 2, false⟩] := of_decide_eq_true hissued
  refine ⟨s₀, s, hinit, hrun, ?_, by rw [hissued]; rfl, fun hseq => ?_⟩
  · simp [ClockFrom, firstSecond]
  · have hblock := hseq 1 ⟨0, 2, false⟩ (by rw [hissued]; rfl)
    exact absurd hblock (by decide)

/-! ### The nominal rate -/

/-- Every operation was issued while the number of operations before it was below the rate. -/
def WithinRate (r : RunConf) (s : LoopState) : Prop :=
  ∀ k op, s.issued[k]? = some op → ((k * r.nproc : ℕ) : ℚ) < r.ratio * op.timeElapsed

/-- With every operation but the last counted, the throttle holds back the operations themselves. -/
theorem LoopInv.withinRate (hs : LoopInv conf r cNurand idproc s) (hnominal : r.testtype = .nominal)
    (hmeasured : ∀ op ∈ s.issued.dropLast, op.measured = true) (hnproc : 1 ≤ r.nproc)
    (hlen : s.issued.length * r.nproc ≤ 2 ^ 64) : WithinRate r s := by
  intro k op hk
  have hlt := (List.getElem?_eq_some_iff.mp hk).1
  obtain ⟨-, hpos, hthrottle⟩ := hs.issued k op hk
  have hprod : k * r.nproc < 2 ^ 64 := lt_of_lt_of_le (Nat.mul_lt_mul_of_pos_right hlt hnproc) hlen
  have hk64 : k < 2 ^ 64 := lt_of_le_of_lt (Nat.le_mul_of_pos_right k hnproc) hprod
  rcases hthrottle with hpeak | hrate
  · rw [hnominal] at hpeak
    cases hpeak
  · rw [countedBefore_eq hmeasured hlt, u64_of_lt hk64, u64_of_lt hprod, div_lt_iff₀ hpos] at hrate
    exact hrate

/-- **The nominal rate is never exceeded** in a run in which every operation but the last is counted: an
operation is issued only while the number of operations before it, times the number of processes, is below the
rate; so up to any time the operations are at most one more than the rate allows for. -/
theorem rate_never_exceeded {tim base : ℕ} (hnominal : r.testtype = .nominal) (hratio : 0 < r.ratio)
    (hnproc : 1 ≤ r.nproc) (hclock : ClockFrom base ticks) (hinit : loopInit r tim base = .ok s₀)
    (hrun : loopRun conf r cNurand idproc ticks s₀ = .ok s)
    (hmeasured : ∀ op ∈ s.issued.dropLast, op.measured = true) (hlen : s.issued.length * r.nproc ≤ 2 ^ 64) :
    WithinRate r s ∧ (s.issued.length : ℚ) ≤ r.ratio * (s.base - base + 1) / r.nproc + 1 := by
  have hwithin := (loopRun_inv hinit hrun).withinRate hnominal hmeasured hnproc hlen
  refine ⟨hwithin, ?_⟩
  obtain ⟨-, hissued₀, hbase₀, helapsed₀⟩ := loopInit_eq_ok hinit
  -- `time_elapsed` is the time since the loop began, and one more
  have helapsed : s.timeElapsed = s.base - base + 1 := by
    have h := foldlM_inv (P := fun u => u.timeElapsed - (u.base : ℚ) = 1 - base)
      (fun u t u' _ hu hstep => (loopStep_elapsed hstep).trans hu) (by rw [helapsed₀, hbase₀]) hrun
    linarith
  obtain ⟨hone, hle⟩ := loopRun_elapsed_le hclock hbase₀.le helapsed₀.ge (by rw [hissued₀]; simp) hrun
  have hn : (0 : ℚ) < r.nproc := by
    rw [Nat.cast_pos]
    exact hnproc
  rw [← helapsed, ← sub_le_iff_le_add, le_div_iff₀ hn]
  rcases Nat.eq_zero_or_pos s.issued.length with h0 | hpos
  · have hnonneg : 0 ≤ r.ratio * s.timeElapsed := mul_nonneg hratio.le (by linarith)
    rw [h0, Nat.cast_zero]
    linarith
  · obtain ⟨op, hop⟩ : ∃ op, s.issued[s.issued.length - 1]? = some op :=
      ⟨_, List.getElem?_eq_getElem (Nat.sub_lt hpos Nat.one_pos)⟩
    have hlast := hwithin _ op hop
    have hop := hle op (List.mem_of_getElem? hop)
    rw [Nat.cast_mul, Nat.cast_sub hpos, Nat.cast_one] at hlast
    exact hlast.le.trans (mul_le_mul_of_nonneg_left hop hratio.le)

/-- A round that begins a second later. -/
def nextSecond : Tick := ⟨[], 1000003, 1000003, 1000003, 1000003⟩

/-- A nominal test of a minute, at one operation a second. -/
def nominalMinute (start : ℤ) : RunConf := ⟨.nominal, 1 / 1000000, 1, true, false, 60, 0, start, 0⟩

/-- The second round finds the rate reached, and idles; a second later another operation is due. -/
theorem nominalMinute_withinRate : ∃ s₀ s, loopInit (nominalMinute 0) 0 0 = .ok s₀ ∧
    loopRun inOrder (nominalMinute 0) 0 0 [firstSecond 1, firstSecond 2, nextSecond, nextSecond] s₀ = .ok s ∧
    s.issued.length = 2 ∧ WithinRate (nominalMinute 0) s := by
  have h : okWith (loopInit (nominalMinute 0) 0 0) fun s₀ =>
      okWith (loopRun inOrder (nominalMinute 0) 0 0 [firstSecond 1, firstSecond 2, nextSecond, nextSecond] s₀)
        fun s => s.issued.length = 2 := by
    decide +kernel
  obtain ⟨s₀, hinit, h⟩ := exists_of_okWith h
  obtain ⟨s, hrun, hlen⟩ := exists_of_okWith h
  have hlen : s.issued.length = 2 := of_decide_eq_true hlen
  have hclock : ClockFrom 0 [firstSecond 1, firstSecond 2, nextSecond, nextSecond] := by
    simp [ClockFrom, firstSecond, nextSecond]
  have hmeasured : ∀ op ∈ s.issued.dropLast, op.measured = true := fun op hop =>
    measured_of_noRampUp (.inr rfl) le_rfl hclock hinit hrun op (List.dropLast_subset _ hop)
  have hratio : 0 < (nominalMinute 0).ratio := by
    show (0 : ℚ) < 1 / 1000000
    norm_num
  refine ⟨s₀, s, hinit, hrun, hlen, (rate_never_exceeded rfl hratio le_rfl hclock hinit hrun hmeasured ?_).1⟩
  rw [hlen]
  decide

/-- During the ramp-up nothing is held back. -/
theorem rampUp_exceeds_rate : ∃ s₀ s, loopInit (nominalMinute 1) 0 0 = .ok s₀ ∧
    loopRun inOrder (nominalMinute 1) 0 0 [firstSecond 1, firstSecond 2] s₀ = .ok s ∧
    ClockFrom 0 [firstSecond 1, firstSecond 2] ∧ ¬ WithinRate (nominalMinute 1) s := by
  have h : okWith (loopInit (nominalMinute 1) 0 0) fun s₀ =>
      okWith (loopRun inOrder (nominalMinute 1) 0 0 [firstSecond 1, firstSecond 2] s₀) fun s =>
        s.issued = [⟨0, 1, false⟩, ⟨0, 2, false⟩] := by
    decide +kernel
  obtain ⟨s₀, hinit, h⟩ := exists_of_okWith h
  obtain ⟨s, hrun, hissued⟩ := exists_of_okWith h
  have hissued : s.issued = [⟨0, 1, false⟩, ⟨0, 2, false⟩] := of_decide_eq_true hissued
  refine ⟨s₀, s, hinit, hrun, by simp [ClockFrom, firstSecond], fun hwithin => ?_⟩
  have hsecond := hwithin 1 ⟨0, 2, false⟩ (by rw [hissued]; rfl)
  exact absurd hsecond (by decide +kernel)

end Dedisbench
