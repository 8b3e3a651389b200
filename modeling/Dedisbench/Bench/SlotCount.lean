import Dedisbench.Bench.SizeRun
import Dedisbench.Bench.Snapshots

/-!
# How many slots a run takes

`process_run` allocates 1000 slots for each array of snapshots and never looks at the number again.  Slots are closed
at least thirty seconds apart, so a test that lasts at most 30000 seconds stays inside; `main` takes any number of
minutes.  `RunConf.FewSlots` says when the slots are enough and `slots_in_range` that they are, with any latencies and
a clock that never goes back.
-/

namespace Dedisbench

open ExceptRun

/-! ### The stores of a run -/

/-- The round stores a snapshot to slot `i`. -/
def LoopState.Stores (r : RunConf) (s : LoopState) (t : Tick) (i : ℕ) : Prop :=
  s.GoesOn ∧ r.issues s = true ∧ s.measured = true ∧
    let st := (s.stat.timed s.measured t.t1 t.t2).counted s.measured
    st.lastSnapTime + 30000000 ≤ st.t1snap ∧ st.iterSnap = i

/-- So does the end of the run. -/
def LoopState.StoresLast (s : LoopState) (i : ℕ) : Prop :=
  ¬ s.GoesOn ∧ s.measured = true ∧ s.stat.lastSnapTime < s.stat.t1snap ∧ s.stat.iterSnap = i

/-- **Every store of a run is to one of the slots that have been allocated.** -/
structure SlotsInRange (conf : Conf) (r : RunConf) (cNurand idproc : ℕ) (ticks : List Tick) (s₀ : LoopState) : Prop where
  loop : ∀ pre t post s i, ticks = pre ++ t :: post → loopRun conf r cNurand idproc pre s₀ = .ok s →
    s.Stores r t i → i < 1000
  last : ∀ s i, loopRun conf r cNurand idproc ticks s₀ = .ok s → s.StoresLast i → i < 1000

/-- The test starts with a ramp-up. -/
def RunConf.rampsUp (r : RunConf) (tim : ℕ) : Bool :=
  !r.flagTerminationSize && decide (seconds tim < ofInt64 (seconds tim + r.start * 30))

/-- A ramp-up closes its first slot at once, not after thirty seconds. -/
def RunConf.lead (r : RunConf) (tim : ℕ) : ℕ := if r.rampsUp tim then 30 else 0

/-- The seconds from the start of a test to its end. -/
def RunConf.duration (r : RunConf) : ℤ := r.timeToRun - r.finish * 30

/-- A nominal test without a ramp-up has time for 1001 operations at most. -/
structure RunConf.SlowRate (r : RunConf) (tim : ℕ) : Prop where
  nominal : r.testtype = .nominal
  noRampUp : r.rampsUp tim = false
  ends : 0 ≤ seconds tim + r.duration
  rate : r.ratio * (1000000 * r.duration) ≤ 1001 * r.nproc
  nproc : 1001 * r.nproc < 2 ^ 64

/-- **The slots are enough**: the test has few operations, by their number or by its rate, its ramp-up is not over on the
clock, or its end comes in time. -/
def RunConf.FewSlots (r : RunConf) (tim : ℕ) (ticks : List Tick) : Prop :=
  (r.flagTerminationSize = true ∧ r.numberOps / r.nproc ≤ 1001) ∨ r.SlowRate tim ∨
  (r.rampsUp tim = true ∧ ∀ t ∈ ticks, seconds t.tim < ofInt64 (seconds tim + r.start * 30)) ∨
  (0 ≤ seconds tim + r.duration ∧ r.duration + r.lead tim ≤ 30000)

variable {conf : Conf} {r : RunConf} {cNurand idproc tim base now : ℕ} {s₀ s s' : LoopState} {t : Tick}
  {ticks : List Tick}

/-! ### What an operation does to the time of the last slot -/

/-- The time of the last slot as the operation finds it: the first one that is measured sets it. -/
def LoopState.lastSnapAt (s : LoopState) (t : Tick) : ℕ :=
  if s.stat.beginio = 2 ^ 64 - 1 ∧ s.measured then u64 t.t2 else s.stat.lastSnapTime

theorem LoopState.lastSnapTime_counted (s : LoopState) (t : Tick) :
    ((s.stat.timed s.measured t.t1 t.t2).counted s.measured).lastSnapTime = s.lastSnapAt t := by
  rw [(Stats.counted_eq _ _).2.2.2.2]
  unfold Stats.timed LoopState.lastSnapAt
  dsimp only
  split <;> split <;> rfl

theorem LoopState.t1snap_counted (s : LoopState) (t : Tick) :
    ((s.stat.timed s.measured t.t1 t.t2).counted s.measured).t1snap = u64 t.t2 := by
  rw [(Stats.counted_eq _ _).2.2.2.1, (Stats.timed_eq _ _ _ _).2.2.2.1]

theorem LoopState.iterSnap_counted (s : LoopState) (t : Tick) :
    ((s.stat.timed s.measured t.t1 t.t2).counted s.measured).iterSnap = s.stat.iterSnap := by
  rw [(Stats.counted_eq _ _).1, (Stats.timed_eq _ _ _ _).1]

theorem LoopState.Stores.eq_iterSnap {i : ℕ} (h : s.Stores r t i) : i = s.stat.iterSnap := by
  rw [← h.2.2.2.2, LoopState.iterSnap_counted]

theorem Stats.snapshot_times {st st' : Stats} {m : Bool} (h : st.snapshot m = .ok st') :
    st'.t1snap = st.t1snap ∧ st'.beginio = st.beginio := by
  unfold Stats.snapshot at h
  split at h
  · split at h
    · cases h
    · cases h; exact ⟨rfl, rfl⟩
  · cases h; exact ⟨rfl, rfl⟩

/-- The time of the first operation that is measured. -/
theorem LoopState.beginio_counted (s : LoopState) (t : Tick) :
    ((s.stat.timed s.measured t.t1 t.t2).counted s.measured).beginio =
      if s.stat.beginio = 2 ^ 64 - 1 ∧ s.measured then u64 t.t1 else s.stat.beginio := by
  unfold Stats.counted Stats.timed
  dsimp only
  split <;> split <;> rfl

/-- The operation leaves the slots, or closes one at its time, thirty seconds behind the last one. -/
theorem LoopState.issue_stat (h : s.issue conf r cNurand idproc t = .ok s') : s'.stat.t1snap = u64 t.t2 ∧
    ((s'.stat.iterSnap = s.stat.iterSnap ∧ s'.stat.lastSnapTime = s.lastSnapAt t ∧
        u64 t.t2 < s.lastSnapAt t + 30000000) ∨
      (s'.stat.iterSnap = s.stat.iterSnap + 1 ∧ s'.stat.lastSnapTime = u64 t.t2 ∧
        s.lastSnapAt t + 30000000 ≤ u64 t.t2)) := by
  rw [LoopState.issue, bind_eq_ok] at h
  obtain ⟨⟨off, rest⟩, -, h⟩ := h
  simp only [bind_eq_ok] at h
  obtain ⟨stat, hstat, h⟩ := h
  cases h
  have ht1 := s.t1snap_counted t
  have hlast := s.lastSnapTime_counted t
  have hiter := s.iterSnap_counted t
  refine ⟨(Stats.snapshot_times hstat).1.trans ht1, ?_⟩
  unfold Stats.snapshot at hstat
  rw [hlast, ht1] at hstat
  split at hstat
  next htick =>
    split at hstat
    · cases hstat
    · cases hstat
      exact .inr ⟨congrArg (· + 1) hiter, rfl, htick⟩
  next htick =>
    cases hstat
    exact .inl ⟨hiter, hlast, not_le.mp htick⟩

/-- The end of a test that ends by time. -/
theorem loopInit_endTime (htime : r.flagTerminationTime = true) (h : loopInit r tim base = .ok s) :
    s.endTime = ofInt64 (seconds tim + r.timeToRun - r.finish * 30) := by
  unfold loopInit RunConf.timeLimits at h
  rw [if_pos htime] at h
  simp only [bind_eq_ok] at h
  obtain ⟨limits, ⟨rampUp, -, coolDown, hcoolDown, hlimits⟩, sizes, -, h⟩ := h
  obtain ⟨-, rfl⟩ := cInt_eq_ok.mp hcoolDown
  cases hlimits
  split at h
  · cases h
  · cases h
    rfl

/-- The operations of a test that ends by size. -/
theorem loopInit_sizes (hsize : r.flagTerminationSize = true) (h : loopInit r tim base = .ok s) :
    s.beginSize = 0 ∧ s.endSize = r.numberOps / r.nproc := by
  unfold loopInit RunConf.sizeLimits at h
  simp only [bind_eq_ok, hsize, if_true] at h
  obtain ⟨limits, -, sizes, hsizes, h⟩ := h
  split at hsizes
  · cases hsizes
  · cases hsizes
    cases h
    exact ⟨rfl, rfl⟩

/-! ### A slot for each operation at most -/

/-- What holds where every operation is measured: the first operation closes no slot, and one that closes a slot leaves
nothing for the end of the run. -/
structure SlotsByOps (s : LoopState) : Prop where
  slots : (s.stat.iterSnap = 0 ∧ s.stat.beginio = 2 ^ 64 - 1) ∨ s.stat.iterSnap + 1 ≤ s.issued.length
  last : s.stat.lastSnapTime = s.stat.t1snap ∨ s.stat.iterSnap + 2 ≤ s.issued.length

theorem SlotsByOps.start (hinit : loopInit r tim base = .ok s) : SlotsByOps s := by
  obtain ⟨hstat, -, -, -⟩ := loopInit_eq_ok hinit
  constructor
  · rw [hstat]
    exact .inl ⟨rfl, rfl⟩
  · rw [hstat]
    exact .inl rfl

theorem SlotsByOps.step (hm : s.measured = true) (h : SlotsByOps s)
    (hstep : loopStep conf r cNurand idproc s t = .ok s') : SlotsByOps s' := by
  rcases loopStep_cases hstep with ⟨-, rfl⟩ | ⟨-, -, s₁, rfl, ⟨-, rfl⟩ | ⟨-, hissue⟩⟩
  · exact h
  · exact ⟨h.slots, h.last⟩
  · obtain ⟨off, rest, -, hissued, -⟩ := LoopState.issue_eq_ok hissue
    obtain ⟨ht1, hslots⟩ := LoopState.issue_stat hissue
    have hnext : s₁.issued.length = s.issued.length + 1 := by rw [hissued, List.length_append, List.length_singleton]
    have hfirst : s.stat.beginio = 2 ^ 64 - 1 → s.lastSnapAt t = u64 t.t2 := fun hio => if_pos ⟨hio, hm⟩
    constructor
    · show _ ∨ s₁.stat.iterSnap + 1 ≤ s₁.issued.length
      rcases hslots with ⟨hiter, -⟩ | ⟨hiter, -, htick⟩
      · rcases h.slots with ⟨hzero, -⟩ | hslots
        · exact .inr (by omega)
        · exact .inr (by omega)
      · rcases h.slots with ⟨-, hio⟩ | hslots
        · rw [hfirst hio] at htick
          omega
        · exact .inr (by omega)
    · show s₁.stat.lastSnapTime = s₁.stat.t1snap ∨ s₁.stat.iterSnap + 2 ≤ s₁.issued.length
      rcases hslots with ⟨hiter, hlast, -⟩ | ⟨-, hlast, -⟩
      · rcases h.slots with ⟨-, hio⟩ | hslots
        · exact .inl (by rw [hlast, hfirst hio, ht1])
        · exact .inr (by omega)
      · exact .inl (by rw [hlast, ht1])

/-- No operation finds more than 1000 before it, by a property that every round keeps. -/
theorem slotsInRange_of_fewOps {P : LoopState → Prop} (hinit : loopInit r tim base = .ok s₀) (hstart : P s₀)
    (hstep : ∀ t ∈ ticks, ∀ s s', P s → loopStep conf r cNurand idproc s t = .ok s' → P s')
    (hm : ∀ s, P s → s.measured = true) (hle : ∀ s, P s → s.issued.length ≤ 1001)
    (hlt : ∀ s, P s → s.GoesOn → r.issues s = true → s.issued.length ≤ 1000) :
    SlotsInRange conf r cNurand idproc ticks s₀ := by
  have hinv : ∀ {pre post s}, ticks = pre ++ post → loopRun conf r cNurand idproc pre s₀ = .ok s →
      P s ∧ SlotsByOps s := by
    rintro pre post s rfl hrun
    refine foldlM_inv (P := fun u => P u ∧ SlotsByOps u) (fun u t u' ht hu hstep' => ?_) ⟨hstart, .start hinit⟩ hrun
    exact ⟨hstep t (List.mem_append_left _ ht) u u' hu.1 hstep', hu.2.step (hm u hu.1) hstep'⟩
  refine ⟨fun pre t post s i heq hrun hs => ?_, fun s i hrun hs => ?_⟩
  · obtain ⟨hP, h⟩ := hinv heq hrun
    have hi := hs.eq_iterSnap
    have hops := hlt s hP hs.1 hs.2.1
    rcases h.slots with ⟨hzero, -⟩ | hslots
    · omega
    · omega
  · obtain ⟨hP, h⟩ := hinv (List.append_nil ticks).symm hrun
    obtain ⟨-, -, hlater, hi⟩ := hs
    have hops := hle s hP
    rcases h.last with heq | hlast
    · omega
    · omega

/-- A test that ends by size counts its operations. -/
structure OpsBySize (s : LoopState) : Prop where
  ruBegin : s.ruBegin = 0
  beginSize_eq : s.beginSize = s.issued.length
  beginSize_le : s.beginSize ≤ s.endSize
  endSize_le : s.endSize ≤ 1001

theorem OpsBySize.start (hsize : r.flagTerminationSize = true) (hops : r.numberOps / r.nproc ≤ 1001)
    (hinit : loopInit r tim base = .ok s) : OpsBySize s := by
  obtain ⟨-, hissued, -, -⟩ := loopInit_eq_ok hinit
  obtain ⟨hbegin, hend⟩ := loopInit_sizes hsize hinit
  have hru : s.ruBegin = 0 := by
    rcases (loopInit_limits hinit).2 with ⟨-, hru⟩ | ⟨hsize', -⟩
    · exact hru
    · rw [hsize] at hsize'
      cases hsize'
  exact ⟨hru, by rw [hbegin, hissued]; rfl, by omega, by omega⟩

theorem OpsBySize.step (hsize : r.flagTerminationSize = true) (h : OpsBySize s)
    (hstep : loopStep conf r cNurand idproc s t = .ok s') : OpsBySize s' := by
  rcases loopStep_cases hstep with ⟨-, rfl⟩ | ⟨hgo, -, s₁, rfl, ⟨-, rfl⟩ | ⟨-, hissue⟩⟩
  · exact h
  · exact ⟨h.ruBegin, h.beginSize_eq, h.beginSize_le, h.endSize_le⟩
  · obtain ⟨off, rest, -, hissued, -, -, hru, -⟩ := LoopState.issue_eq_ok hissue
    obtain ⟨-, hbegin, hend⟩ := LoopState.issue_limits hissue
    have hlt : s.beginSize < s.endSize := hgo.2
    have hle := h.endSize_le
    have hnext : s₁.beginSize = s.beginSize + 1 := by
      rw [hbegin, if_pos hsize]
      exact u64_of_lt (by omega)
    refine ⟨hru.trans h.ruBegin, ?_, ?_, hend ▸ hle⟩
    · show s₁.beginSize = s₁.issued.length
      rw [hnext, hissued, List.length_append, List.length_singleton, h.beginSize_eq]
    · show s₁.beginSize ≤ s₁.endSize
      omega

theorem ClockFrom.le_lap (h : ClockFrom now ticks) : ∀ t ∈ ticks, now ≤ t.lap ∧ t.lap ≤ t.tim := by
  induction ticks generalizing now with
  | nil =>
    intro t ht
    cases ht
  | cons t ticks ih =>
    obtain ⟨h1, h2, h3, h4, hrest⟩ := h
    intro u hu
    rcases List.mem_cons.mp hu with rfl | hu
    · exact ⟨by omega, h4⟩
    · obtain ⟨hle, hlap⟩ := ih hrest u hu
      exact ⟨by omega, hlap⟩

/-- A test ends by time at the second that its configuration says. -/
theorem loopInit_duration (htime : r.flagTerminationTime = true) (h : loopInit r tim base = .ok s) :
    s.endTime = ofInt64 (seconds tim + r.duration) := by
  rw [loopInit_endTime htime h, RunConf.duration]
  congr 1
  ring

/-- A nominal test without a ramp-up counts its operations, and its time runs with the clock. -/
structure OpsByRate (r : RunConf) (tim base : ℕ) (s : LoopState) : Prop where
  ruBegin : s.ruBegin ≤ seconds tim
  begin_ge : seconds tim ≤ s.beginTime
  endTime : s.endTime = ofInt64 (seconds tim + r.duration)
  totOps : s.stat.totOps = s.issued.length
  length_le : s.issued.length ≤ 1001
  base_le : base ≤ s.base
  elapsed : s.timeElapsed - s.base = 1 - base
  clock : s.timeElapsed = 1 ∨ ∃ now, s.base ≤ now ∧ seconds now = s.beginTime

theorem OpsByRate.start (htime : r.flagTerminationTime = true) (hslow : r.SlowRate tim)
    (hinit : loopInit r tim base = .ok s) : OpsByRate r tim base s := by
  obtain ⟨hstat, hissued, hbase, helapsed⟩ := loopInit_eq_ok hinit
  obtain ⟨hbegin, hlimits⟩ := loopInit_limits hinit
  refine ⟨?_, (hbegin htime).ge, loopInit_duration htime hinit, ?_, ?_, hbase.ge, ?_, .inl helapsed⟩
  · rcases hlimits with ⟨-, hru⟩ | ⟨hsize, -, hru⟩
    · rw [hru]
      exact Nat.zero_le _
    · have hno := hslow.noRampUp
      rw [hru]
      simpa [RunConf.rampsUp, hsize] using hno
  · rw [hstat, hissued]
    rfl
  · rw [hissued]
    decide
  · rw [hbase, helapsed]

theorem OpsByRate.elapsed_pos (h : OpsByRate r tim base s) : 0 < s.timeElapsed := by
  have hle : (base : ℚ) ≤ s.base := Nat.cast_le.mpr h.base_le
  linarith [h.elapsed]

/-- The time that has passed before an operation is less than that of the whole test. -/
theorem OpsByRate.elapsed_le (h : OpsByRate r tim base s) (htim : tim ≤ base) (hends : 0 ≤ seconds tim + r.duration)
    (hgo : s.GoesOn) : s.timeElapsed ≤ (1000000 * r.duration : ℤ) := by
  have hend : (s.endTime : ℤ) ≤ seconds tim + r.duration := h.endTime ▸ ofInt64_le hends
  have hlt : s.beginTime < s.endTime := hgo.1
  have hbegin := h.begin_ge
  rcases h.clock with hone | ⟨now, hnow, hsec⟩
  · rw [hone]
    have hle : (1 : ℤ) ≤ 1000000 * r.duration := by omega
    exact_mod_cast hle
  · have hle : (s.base : ℤ) + 1 - base ≤ 1000000 * r.duration := by
      unfold seconds at hsec hend
      omega
    have hcast : (s.base : ℚ) + 1 - base ≤ (1000000 * r.duration : ℤ) := by exact_mod_cast hle
    linarith [h.elapsed]

/-- The throttle lets 1001 operations through at most. -/
theorem OpsByRate.length_lt (h : OpsByRate r tim base s) (hslow : r.SlowRate tim) (htim : tim ≤ base) (hgo : s.GoesOn)
    (hissues : r.issues s = true) : s.issued.length ≤ 1000 := by
  have hpos := h.elapsed_pos
  have hwrap : s.issued.length * r.nproc < 2 ^ 64 :=
    lt_of_le_of_lt (Nat.mul_le_mul_right _ h.length_le) hslow.nproc
  have hrate : ((s.issued.length * r.nproc : ℕ) : ℚ) < r.ratio * s.timeElapsed := by
    simp only [RunConf.issues, hslow.nominal, h.totOps, u64_of_lt hwrap, Bool.or_eq_true, decide_eq_true_eq] at hissues
    exact (div_lt_iff₀ hpos).mp (hissues.resolve_left (by decide))
  by_contra hmany
  have hcount : 1001 * r.nproc ≤ s.issued.length * r.nproc := Nat.mul_le_mul_right _ (by omega)
  have hratio : 0 ≤ r.ratio := by
    by_contra hneg
    have hle : r.ratio * s.timeElapsed ≤ 0 := mul_nonpos_of_nonpos_of_nonneg (not_le.mp hneg).le hpos.le
    have hnonneg : (0 : ℚ) ≤ ((s.issued.length * r.nproc : ℕ) : ℚ) := Nat.cast_nonneg _
    linarith
  have helapsed := h.elapsed_le htim hslow.ends hgo
  have hbound : r.ratio * s.timeElapsed ≤ 1001 * r.nproc := by
    refine le_trans (mul_le_mul_of_nonneg_left helapsed hratio) ?_
    have hslowRate := hslow.rate
    push_cast
    exact hslowRate
  have hcast : (1001 * r.nproc : ℚ) ≤ ((s.issued.length * r.nproc : ℕ) : ℚ) := by exact_mod_cast hcount
  linarith

theorem OpsByRate.measured (h : OpsByRate r tim base s) : s.measured = true :=
  decide_eq_true (h.ruBegin.trans h.begin_ge)

theorem OpsByRate.step (htime : r.flagTerminationTime = true) (hslow : r.SlowRate tim) (htim : tim ≤ base)
    (hbase : base ≤ t.lap) (hlap : t.lap ≤ t.tim) (h : OpsByRate r tim base s)
    (hstep : loopStep conf r cNurand idproc s t = .ok s') : OpsByRate r tim base s' := by
  have helapsed := loopStep_elapsed hstep
  have hadvance : ∀ s₁ : LoopState, (s₁.advance r t).beginTime = seconds t.tim := fun s₁ => if_pos htime
  have hbegin : seconds tim ≤ seconds t.tim := seconds_mono (htim.trans (hbase.trans hlap))
  rcases loopStep_cases hstep with ⟨-, rfl⟩ | ⟨hgo, -, s₁, rfl, ⟨-, rfl⟩ | ⟨hissues, hissue⟩⟩
  · exact h
  · exact ⟨h.ruBegin, hadvance _ ▸ hbegin, h.endTime, h.totOps, h.length_le, hbase, helapsed.trans h.elapsed,
      .inr ⟨t.tim, hlap, (hadvance _).symm⟩⟩
  · obtain ⟨off, rest, -, hissued, htotOps, -, hru, -⟩ := LoopState.issue_eq_ok hissue
    obtain ⟨hend, -, -⟩ := LoopState.issue_limits hissue
    have hlen := h.length_lt hslow htim hgo hissues
    have hnext : s₁.issued.length = s.issued.length + 1 := by rw [hissued, List.length_append, List.length_singleton]
    refine ⟨hru.trans_le h.ruBegin, hadvance s₁ ▸ hbegin, hend.trans h.endTime, ?_, ?_, hbase, helapsed.trans h.elapsed,
      .inr ⟨t.tim, hlap, (hadvance s₁).symm⟩⟩
    · show s₁.stat.totOps = s₁.issued.length
      rw [htotOps, if_pos h.measured, h.totOps, hnext]
      exact u64_of_lt (by omega)
    · show s₁.issued.length ≤ 1001
      omega

/-! ### A slot for each half minute at most -/

/-- What holds in a test that ends by time, with `now` the last time on the clock: the slots lie thirty seconds apart,
and the first of them comes no earlier than thirty seconds behind the start, or than the start if there is a ramp-up. -/
structure SlotsByTime (r : RunConf) (tim now : ℕ) (s : LoopState) : Prop where
  tim_le : tim ≤ now
  begin_ge : seconds tim ≤ s.beginTime
  ruBegin : r.rampsUp tim = false → s.ruBegin ≤ seconds tim
  endTime : s.endTime = ofInt64 (seconds tim + r.duration)
  slots : (s.stat.iterSnap = 0 ∧ (r.rampsUp tim = true ∨ s.stat.beginio = 2 ^ 64 - 1)) ∨ ∃ τ ≤ now,
    seconds τ ≤ s.beginTime ∧ s.stat.lastSnapTime = u64 τ ∧
      seconds tim * 1000000 + 30000000 * s.stat.iterSnap ≤ τ + 1000000 * r.lead tim
  last : s.stat.iterSnap = 0 ∨ s.stat.lastSnapTime = s.stat.t1snap ∨
    seconds tim + 30 * s.stat.iterSnap < s.endTime + r.lead tim

theorem SlotsByTime.measured (h : SlotsByTime r tim now s) (hr : r.rampsUp tim = false) : s.measured = true :=
  decide_eq_true ((h.ruBegin hr).trans h.begin_ge)

theorem RunConf.lead_of_rampsUp (h : r.rampsUp tim = true) : r.lead tim = 30 := if_pos h

/-- The slots that are closed leave time for another one only before the end. -/
theorem SlotsByTime.lt_endTime (h : SlotsByTime r tim now s) (hgo : s.GoesOn) (hpos : s.stat.iterSnap ≠ 0) :
    seconds tim + 30 * s.stat.iterSnap < s.endTime + r.lead tim := by
  have hlt : s.beginTime < s.endTime := hgo.1
  rcases h.slots with ⟨hzero, -⟩ | ⟨τ, -, hbegin, -, hle⟩
  · exact absurd hzero hpos
  · have hsec : seconds tim + 30 * s.stat.iterSnap ≤ seconds τ + r.lead tim := by
      unfold seconds at hle ⊢
      omega
    omega

theorem SlotsByTime.start (htime : r.flagTerminationTime = true) (htim : tim ≤ base)
    (hinit : loopInit r tim base = .ok s) : SlotsByTime r tim base s := by
  obtain ⟨hstat, -, -, -⟩ := loopInit_eq_ok hinit
  obtain ⟨hbegin, hlimits⟩ := loopInit_limits hinit
  have hzero : s.stat.iterSnap = 0 := by
    rw [hstat]
    rfl
  refine ⟨htim, (hbegin htime).ge, fun hr => ?_, ?_, .inl ⟨hzero, .inr ?_⟩, .inl hzero⟩
  · rcases hlimits with ⟨-, hru⟩ | ⟨hsize, -, hru⟩
    · rw [hru]
      exact Nat.zero_le _
    · rw [hru]
      simpa [RunConf.rampsUp, hsize] using hr
  · exact loopInit_duration htime hinit
  · rw [hstat]
    rfl

/-- The clock at the end of a round. -/
theorem SlotsByTime.advance {s₁ : LoopState} (h : SlotsByTime r tim now s) (htime : r.flagTerminationTime = true)
    (htim : now ≤ t.tim) (hru : s₁.ruBegin = s.ruBegin) (hend : s₁.endTime = s.endTime)
    (hslots : (s₁.stat.iterSnap = 0 ∧ (r.rampsUp tim = true ∨ s₁.stat.beginio = 2 ^ 64 - 1)) ∨ ∃ τ ≤ t.tim,
      s₁.stat.lastSnapTime = u64 τ ∧ seconds tim * 1000000 + 30000000 * s₁.stat.iterSnap ≤ τ + 1000000 * r.lead tim)
    (hlast : s₁.stat.iterSnap = 0 ∨ s₁.stat.lastSnapTime = s₁.stat.t1snap ∨
      seconds tim + 30 * s₁.stat.iterSnap < s₁.endTime + r.lead tim) : SlotsByTime r tim t.tim (s₁.advance r t) := by
  have hbegin : (s₁.advance r t).beginTime = seconds t.tim := if_pos htime
  refine ⟨h.tim_le.trans htim, ?_, fun hr => ?_, hend.trans h.endTime, ?_, hlast⟩
  · rw [hbegin]
    exact seconds_mono (h.tim_le.trans htim)
  · show s₁.ruBegin ≤ seconds tim
    rw [hru]
    exact h.ruBegin hr
  · rcases hslots with hzero | ⟨τ, hτ, hτlast, hle⟩
    · exact .inl hzero
    · exact .inr ⟨τ, hτ, hbegin ▸ seconds_mono hτ, hτlast, hle⟩

/-- An operation keeps the slots apart. -/
theorem SlotsByTime.issue {s₁ : LoopState} (h : SlotsByTime r tim now s) (hnow : now ≤ t.t2)
    (hissue : s.issue conf r cNurand idproc t = .ok s₁) :
    (s₁.stat.iterSnap = 0 ∧ (r.rampsUp tim = true ∨ s₁.stat.beginio = 2 ^ 64 - 1)) ∨ ∃ τ ≤ t.t2,
      s₁.stat.lastSnapTime = u64 τ ∧ seconds tim * 1000000 + 30000000 * s₁.stat.iterSnap ≤ τ + 1000000 * r.lead tim := by
  have hstart : seconds tim * 1000000 ≤ t.t2 := by
    have htim := h.tim_le
    unfold seconds
    omega
  obtain ⟨-, ⟨hiter, hlast, -⟩ | ⟨hiter, hlast, htick⟩⟩ := LoopState.issue_stat hissue
  · -- no slot is closed, and at most the first measured operation sets the time
    unfold LoopState.lastSnapAt at hlast
    split at hlast
    next =>
      refine .inr ⟨t.t2, le_rfl, hlast, ?_⟩
      rw [hiter]
      rcases h.slots with ⟨hzero, -⟩ | ⟨τ, hτ, -, -, hle⟩
      · rw [hzero, Nat.mul_zero, Nat.add_zero]
        exact hstart.trans (Nat.le_add_right _ _)
      · exact hle.trans (Nat.add_le_add_right (hτ.trans hnow) _)
    next hnot =>
      rcases h.slots with ⟨hzero, hramp⟩ | ⟨τ, hτ, -, hτlast, hle⟩
      · refine .inl ⟨hiter.trans hzero, .inl ?_⟩
        by_contra hr
        have hr : r.rampsUp tim = false := by simpa using hr
        exact hnot ⟨hramp.resolve_left (by simp [hr]), h.measured hr⟩
      · exact .inr ⟨τ, hτ.trans hnow, hlast.trans hτlast, hiter ▸ hle⟩
  · refine .inr ⟨t.t2, le_rfl, hlast, ?_⟩
    rw [hiter]
    unfold LoopState.lastSnapAt at htick
    split at htick
    next => exact absurd htick (not_le.mpr (Nat.lt_add_of_pos_right (by decide)))
    next hnot =>
      rcases h.slots with ⟨hzero, hramp⟩ | ⟨τ, hτ, -, hτlast, hle⟩
      · -- the first slot of a ramp-up
        have hr : r.rampsUp tim = true := by
          by_contra hr
          have hr : r.rampsUp tim = false := by simpa using hr
          exact hnot ⟨hramp.resolve_left (by simp [hr]), h.measured hr⟩
        rw [RunConf.lead_of_rampsUp hr, hzero]
        exact Nat.add_le_add hstart (by decide)
      · have hgap := add_le_of_u64_add_le (m := τ) (n := t.t2) (hτ.trans hnow) (hτlast ▸ htick)
        linarith

/-- **Every round keeps the slots apart.** -/
theorem SlotsByTime.step (htime : r.flagTerminationTime = true) (h : SlotsByTime r tim now s) (h1 : now ≤ t.t1)
    (h2 : t.t1 ≤ t.t2) (h3 : t.t2 ≤ t.lap) (h4 : t.lap ≤ t.tim)
    (hstep : loopStep conf r cNurand idproc s t = .ok s') : SlotsByTime r tim t.tim s' := by
  have htim : now ≤ t.tim := by omega
  rcases loopStep_cases hstep with ⟨-, rfl⟩ | ⟨hgo, -, s₁, rfl, ⟨-, rfl⟩ | ⟨-, hissue⟩⟩
  · refine ⟨h.tim_le.trans htim, h.begin_ge, h.ruBegin, h.endTime, ?_, h.last⟩
    rcases h.slots with hzero | ⟨τ, hτ, hrest⟩
    · exact .inl hzero
    · exact .inr ⟨τ, hτ.trans htim, hrest⟩
  · refine h.advance htime htim rfl rfl ?_ h.last
    rcases h.slots with hzero | ⟨τ, hτ, -, hrest⟩
    · exact .inl hzero
    · exact .inr ⟨τ, hτ.trans htim, hrest⟩
  · obtain ⟨-, -, -, -, -, -, hru, -⟩ := LoopState.issue_eq_ok hissue
    obtain ⟨hend, -, -⟩ := LoopState.issue_limits hissue
    refine h.advance htime htim hru hend ?_ ?_
    · rcases h.issue (h1.trans h2) hissue with hzero | ⟨τ, hτ, hrest⟩
      · exact .inl hzero
      · exact .inr ⟨τ, by omega, hrest⟩
    · obtain ⟨ht1, ⟨hiter, -⟩ | ⟨-, hlast, -⟩⟩ := LoopState.issue_stat hissue
      · -- the slots closed before the round leave time for this operation
        rw [hiter, hend]
        by_cases hzero : s.stat.iterSnap = 0
        · exact .inl hzero
        · exact .inr (.inr (h.lt_endTime hgo hzero))
      · exact .inr (.inl (hlast.trans ht1.symm))

/-- **Every run keeps the slots apart.** -/
theorem SlotsByTime.run (htime : r.flagTerminationTime = true) (h : SlotsByTime r tim now s)
    (hclock : ClockFrom now ticks)
    (hrun : loopRun conf r cNurand idproc ticks s = .ok s') : ∃ now', SlotsByTime r tim now' s' := by
  induction ticks generalizing now s with
  | nil =>
    obtain rfl := foldlM_nil_eq_ok.mp hrun
    exact ⟨now, h⟩
  | cons t ticks ih =>
    obtain ⟨u, hstep, hrun⟩ := foldlM_cons_eq_ok.mp hrun
    obtain ⟨h1, h2, h3, h4, hrest⟩ := hclock
    exact ih (h.step htime h1 h2 h3 h4 hstep) hrest hrun

theorem SlotsByTime.endTime_le (h : SlotsByTime r tim now s) (hend : 0 ≤ seconds tim + r.duration) :
    (s.endTime : ℤ) ≤ seconds tim + r.duration := by
  rw [h.endTime]
  exact ofInt64_le hend

theorem SlotsByTime.stores {i : ℕ} (h : SlotsByTime r tim now s) (hend : 0 ≤ seconds tim + r.duration)
    (hshort : r.duration + r.lead tim ≤ 30000) (hs : s.Stores r t i) : i < 1000 := by
  have hi := hs.eq_iterSnap
  have hle := h.endTime_le hend
  by_cases hzero : s.stat.iterSnap = 0
  · omega
  · have hlt := h.lt_endTime hs.1 hzero
    omega

theorem SlotsByTime.storesLast {i : ℕ} (h : SlotsByTime r tim now s) (hend : 0 ≤ seconds tim + r.duration)
    (hshort : r.duration + r.lead tim ≤ 30000) (hs : s.StoresLast i) : i < 1000 := by
  obtain ⟨-, -, hlater, hi⟩ := hs
  have hle := h.endTime_le hend
  rcases h.last with hzero | heq | hlt
  · omega
  · omega
  · omega

/-! ### No slot at all -/

/-- As long as the ramp-up is not over on the clock, nothing is measured. -/
theorem unmeasured_of_rampsUp (htime : r.flagTerminationTime = true) (hr : r.rampsUp tim = true)
    (hlate : ∀ t ∈ ticks, seconds t.tim < ofInt64 (seconds tim + r.start * 30)) (hinit : loopInit r tim base = .ok s₀)
    (hrun : loopRun conf r cNurand idproc ticks s₀ = .ok s) : s.measured = false := by
  simp only [RunConf.rampsUp, Bool.and_eq_true, Bool.not_eq_true', decide_eq_true_eq] at hr
  obtain ⟨hbegin, hlimits⟩ := loopInit_limits hinit
  have hru : s₀.ruBegin = ofInt64 (seconds tim + r.start * 30) := by
    rcases hlimits with ⟨hsize, -⟩ | ⟨-, -, hru⟩
    · rw [hr.1] at hsize
      cases hsize
    · exact hru
  have hinv : s.ruBegin = ofInt64 (seconds tim + r.start * 30) ∧ s.beginTime < s.ruBegin := by
    refine foldlM_inv (P := fun u => u.ruBegin = ofInt64 (seconds tim + r.start * 30) ∧ u.beginTime < u.ruBegin)
      (fun u t u' ht hu hstep => ?_) ⟨hru, ?_⟩ hrun
    · have hadvance : ∀ u₁ : LoopState, u₁.ruBegin = u.ruBegin →
          (u₁.advance r t).ruBegin = ofInt64 (seconds tim + r.start * 30) ∧
            (u₁.advance r t).beginTime < (u₁.advance r t).ruBegin := by
        intro u₁ hu₁
        have hru₁ : (u₁.advance r t).ruBegin = ofInt64 (seconds tim + r.start * 30) := hu₁.trans hu.1
        refine ⟨hru₁, ?_⟩
        rw [hru₁, LoopState.advance, if_pos htime]
        exact hlate t ht
      rcases loopStep_eq_ok hstep with rfl | ⟨-, u₁, rfl, rfl | ⟨-, hissue⟩⟩
      · exact hu
      · exact hadvance u₁ rfl
      · obtain ⟨-, -, -, -, -, -, hruIssue, -⟩ := LoopState.issue_eq_ok hissue
        exact hadvance u₁ hruIssue
    · rw [hbegin htime, hru]
      exact hr.2
  exact decide_eq_false (not_le.mpr hinv.2)

/-- The clock of the first rounds. -/
theorem ClockFrom.left {post : List Tick} (h : ClockFrom now (ticks ++ post)) : ClockFrom now ticks := by
  induction ticks generalizing now with
  | nil => trivial
  | cons t ticks ih =>
    obtain ⟨h1, h2, h3, h4, hrest⟩ := h
    exact ⟨h1, h2, h3, h4, ih hrest⟩

/-- **When the slots are enough**: with any latencies and a clock that never goes back, a test that ends by time stores
every snapshot to a slot of its arrays if it has few operations, because of their number or of its rate, if its ramp-up
is not over on the clock, or if it lasts at most 30000 seconds, thirty less with a ramp-up. -/
theorem slots_in_range (htime : r.flagTerminationTime = true) (htim : tim ≤ base) (hclock : ClockFrom base ticks)
    (hinit : loopInit r tim base = .ok s₀) (hfew : r.FewSlots tim ticks) :
    SlotsInRange conf r cNurand idproc ticks s₀ := by
  rcases hfew with ⟨hsize, hops⟩ | hslow | ⟨hr, hlate⟩ | ⟨hend, hshort⟩
  · exact slotsInRange_of_fewOps (P := OpsBySize) hinit (.start hsize hops hinit)
      (fun t _ s s' hs hstep => hs.step hsize hstep) (fun s hs => decide_eq_true (hs.ruBegin ▸ Nat.zero_le _))
      (fun s hs => hs.beginSize_eq ▸ hs.beginSize_le.trans hs.endSize_le) fun s hs hgo _ => by
        have hlt : s.beginSize < s.endSize := hgo.2
        have hle := hs.endSize_le
        have heq := hs.beginSize_eq
        omega
  · refine slotsInRange_of_fewOps (P := OpsByRate r tim base) hinit (.start htime hslow hinit)
      (fun t ht s s' hs hstep => ?_) (fun s hs => hs.measured) (fun s hs => hs.length_le)
      fun s hs hgo hissues => hs.length_lt hslow htim hgo hissues
    obtain ⟨hbase, hlap⟩ := hclock.le_lap t ht
    exact hs.step htime hslow htim hbase hlap hstep
  · have hnone : ∀ {pre post s}, ticks = pre ++ post → loopRun conf r cNurand idproc pre s₀ = .ok s →
        s.measured = false := by
      rintro pre post s rfl hrun
      exact unmeasured_of_rampsUp htime hr (fun t ht => hlate t (List.mem_append_left _ ht)) hinit hrun
    refine ⟨fun pre t post s i heq hrun hs => ?_, fun s i hrun hs => ?_⟩
    · exact absurd hs.2.2.1 (by simp [hnone heq hrun])
    · exact absurd hs.2.1 (by simp [hnone (List.append_nil ticks).symm hrun])
  · have hinv : ∀ {pre s}, ClockFrom base pre → loopRun conf r cNurand idproc pre s₀ = .ok s →
        ∃ now, SlotsByTime r tim now s := fun hpre hrun =>
      SlotsByTime.run htime (.start htime htim hinit) hpre hrun
    refine ⟨fun pre t post s i heq hrun hs => ?_, fun s i hrun hs => ?_⟩
    · obtain ⟨now, h⟩ := hinv (heq ▸ hclock).left hrun
      exact h.stores hend hshort hs
    · obtain ⟨now, h⟩ := hinv hclock hrun
      exact h.storesLast hend hshort hs

/-- Half a minute of ramp-up and half a minute measured. -/
theorem peakMinute_slots : ∃ s₀, loopInit (peakMinute 1) 100000000 100000000 = .ok s₀ ∧
    SlotsInRange inOrder (peakMinute 1) 0 0 [atSecond 101, atSecond 131, atSecond 140, atSecond 161] s₀ := by
  have h : okWith (loopInit (peakMinute 1) 100000000 100000000) fun _ => True := by decide +kernel
  obtain ⟨s₀, hinit, -⟩ := exists_of_okWith h
  refine ⟨s₀, hinit, slots_in_range rfl le_rfl ?_ hinit (.inr (.inr (.inr ⟨by decide, by decide⟩)))⟩
  simp [ClockFrom, atSecond]

/-- A nominal test of 501 minutes, with one operation a second by a hundred processes. -/
example : RunConf.SlowRate ⟨.nominal, 1 / 1000000, 100, true, false, 30060, 0, 0, 0⟩ 1700000000000000 :=
  ⟨rfl, by decide, by decide, by norm_num [RunConf.duration], by decide⟩

/-! ### More than 30000 seconds -/

/-- The files of three processes with the default sizes and the default access type. -/
def threeFiles : Conf where
  blockSize := 4096
  filesize := 2147483648
  nprocs := 3
  mixedIO := false
  rawdevice := false
  accesstype := .tpcc
  distout := false
  integrity := 0
  percentageAnalyze := 2
  compressionToAchieve := 25
  blockSize_pos := twoRegions.blockSize_pos
  filesize_lt := by decide

theorem threeFiles_enough : threeFiles.Enough := by
  constructor
  · show 10 ≤ 2147483648 / 4096
    norm_num
  · show 2 ≤ 2147483648 / 4096
    norm_num

/-- A round at the second `t`, for any access type. -/
def roundAt (t : ℕ) : Tick := ⟨[0, 0], t * 1000000, t * 1000000, t * 1000000, t * 1000000⟩

/-- One operation at the start, and then one every half minute. -/
@[irreducible] def halfMinutes (start n : ℕ) : List Tick := (List.range n).map fun k => roundAt (start + 30 * k)

/-- A peak test of 501 minutes, by each of three processes. -/
def peakHours (ratio : ℚ) : RunConf := ⟨.peak, ratio, 3, true, false, 30060, 0, 0, 0⟩

/-- After the round of half minute `n`. -/
structure AtHalfMinute (start n : ℕ) (s : LoopState) : Prop where
  beginTime : s.beginTime = start + 30 * n
  endTime : s.endTime = start + 30060
  size : s.beginSize < s.endSize
  ruBegin : s.ruBegin = start
  timeElapsed : 0 < s.timeElapsed
  base : s.base ≤ (start + 30 * n) * 1000000
  beginio : s.stat.beginio ≠ 2 ^ 64 - 1
  iterSnap : s.stat.iterSnap = n
  lastSnapTime : s.stat.lastSnapTime = (start + 30 * n) * 1000000

section Hours

variable {start n : ℕ} {ratio : ℚ} {s₁ : LoopState}

theorem halfMinutes_succ (start n : ℕ) :
    halfMinutes start (n + 1) = halfMinutes start n ++ [roundAt (start + 30 * n)] := by
  rw [halfMinutes, halfMinutes, List.range_succ, List.map_append]
  rfl

theorem clockFrom_halfMinutes (start n : ℕ) : ClockFrom (start * 1000000) (halfMinutes start n) := by
  suffices h : ∀ l : List ℕ, l.Pairwise (· < ·) → ∀ now, (∀ k ∈ l, now ≤ (start + 30 * k) * 1000000) →
      ClockFrom now (l.map fun k => roundAt (start + 30 * k)) by
    rw [halfMinutes]
    exact h _ List.pairwise_lt_range _ fun k _ => Nat.mul_le_mul_right _ (Nat.le_add_right _ _)
  intro l
  induction l with
  | nil => exact fun _ _ _ => trivial
  | cons k l ih =>
    intro hsorted now hnow
    obtain ⟨hhead, htail⟩ := List.pairwise_cons.mp hsorted
    refine ⟨hnow k List.mem_cons_self, le_rfl, le_rfl, le_rfl, ih htail _ fun j hj => ?_⟩
    have hlt := hhead j hj
    exact Nat.mul_le_mul_right _ (by omega)

theorem LoopState.issue_beginio (h : s.issue conf r cNurand idproc t = .ok s₁) : s₁.stat.beginio =
    if s.stat.beginio = 2 ^ 64 - 1 ∧ s.measured then u64 t.t1 else s.stat.beginio := by
  rw [LoopState.issue, bind_eq_ok] at h
  obtain ⟨⟨off, rest⟩, -, h⟩ := h
  simp only [bind_eq_ok] at h
  obtain ⟨stat, hstat, h⟩ := h
  cases h
  exact (Stats.snapshot_times hstat).2.trans (s.beginio_counted t)

/-- An operation that finds a slot comes through. -/
theorem exists_issue (hslot : s.stat.iterSnap < 1000) (m : ℕ) :
    ∃ s₁, s.issue threeFiles r 0 0 (roundAt m) = .ok s₁ := by
  obtain ⟨off, rest, hoff⟩ := @Conf.getIoposition_ok threeFiles (by decide) threeFiles_enough 0 (by decide)
    s.stat.totOps 0 0 0 []
  have hclosed : ∃ st, ((s.stat.timed s.measured (roundAt m).t1 (roundAt m).t2).counted s.measured).snapshot s.measured =
      .ok st := by
    have hiter := s.iterSnap_counted (roundAt m)
    unfold Stats.snapshot
    split
    · rw [if_neg fun hfull => by omega]
      exact ⟨_, rfl⟩
    · exact ⟨_, rfl⟩
  obtain ⟨st, hst⟩ := hclosed
  rw [LoopState.issue, show (roundAt m).raws = [0, 0] from rfl, hoff, bind_ok]
  dsimp only
  rw [hst, bind_ok]
  exact ⟨_, rfl⟩

/-- One that stores behind the last slot does not. -/
theorem issue_of_stores {i m : ℕ} (hs : s.Stores r (roundAt m) i) (hi : 1000 ≤ i) :
    s.issue threeFiles r 0 0 (roundAt m) = .error .undefined := by
  obtain ⟨off, rest, hoff⟩ := @Conf.getIoposition_ok threeFiles (by decide) threeFiles_enough 0 (by decide)
    s.stat.totOps 0 0 0 []
  obtain ⟨-, -, hmeasured, htick, hiter⟩ := hs
  have hfull : ((s.stat.timed s.measured (roundAt m).t1 (roundAt m).t2).counted s.measured).snapshot s.measured =
      .error .undefined := by
    unfold Stats.snapshot
    rw [if_pos htick, if_pos ⟨hmeasured, hiter ▸ hi⟩]
  rw [LoopState.issue, show (roundAt m).raws = [0, 0] from rfl, hoff, bind_ok]
  dsimp only
  rw [hfull, bind_error]

theorem loopStep_of_issue (hgo : s.GoesOn) (hpos : 0 < s.timeElapsed)
    (hissue : s.issue conf (peakHours ratio) cNurand idproc t = .ok s₁) :
    loopStep conf (peakHours ratio) cNurand idproc s t = .ok (s₁.advance (peakHours ratio) t) := by
  have hissues : (peakHours ratio).issues s = true := rfl
  rw [loopStep, hissues, if_neg (not_le.mpr hpos), if_pos rfl, hissue]
  exact if_pos hgo

theorem AtHalfMinute.measured (h : AtHalfMinute start n s) : s.measured = true := by
  refine decide_eq_true ?_
  rw [h.ruBegin, h.beginTime]
  exact Nat.le_add_right _ _

theorem AtHalfMinute.goesOn (h : AtHalfMinute start n s) (hn : n ≤ 1000) : s.GoesOn := by
  refine ⟨?_, h.size⟩
  rw [h.beginTime, h.endTime]
  omega

theorem u64_second {m : ℕ} (hm : m ≤ 2 ^ 40) : u64 (m * 1000000) = m * 1000000 :=
  u64_of_lt (by omega)

/-- In the next half minute, a slot is due. -/
theorem AtHalfMinute.due (h : AtHalfMinute start n s) (hstart : start ≤ 2 ^ 32) (hn : n ≤ 1000) :
    s.lastSnapAt (roundAt (start + 30 * (n + 1))) + 30000000 ≤ u64 (roundAt (start + 30 * (n + 1))).t2 := by
  have ht2 : u64 (roundAt (start + 30 * (n + 1))).t2 = (start + 30 * (n + 1)) * 1000000 := u64_second (by omega)
  rw [ht2, LoopState.lastSnapAt, if_neg fun hio => h.beginio hio.1, h.lastSnapTime]
  linarith

/-- The end of a round at half minute `n`. -/
theorem atHalfMinute_advance (hend : s₁.endTime = start + 30060) (hsize : s₁.beginSize < s₁.endSize)
    (hru : s₁.ruBegin = start) (hpos : 0 < s₁.timeElapsed) (hbase : s₁.base ≤ t.lap)
    (hlap : t.lap = (start + 30 * n) * 1000000) (htim : t.tim = (start + 30 * n) * 1000000)
    (hio : s₁.stat.beginio ≠ 2 ^ 64 - 1) (hiter : s₁.stat.iterSnap = n)
    (hlast : s₁.stat.lastSnapTime = (start + 30 * n) * 1000000) :
    AtHalfMinute start n (s₁.advance (peakHours ratio) t) := by
  refine ⟨?_, hend, hsize, hru, ?_, hlap.le, hio, hiter, hlast⟩
  · show seconds t.tim = start + 30 * n
    rw [htim]
    exact Nat.mul_div_cancel _ (by decide)
  · show 0 < s₁.timeElapsed + ((t.lap : ℚ) - s₁.base)
    have hle : (s₁.base : ℚ) ≤ t.lap := by exact_mod_cast hbase
    linarith

theorem AtHalfMinute.next (h : AtHalfMinute start n s) (hstart : start ≤ 2 ^ 32) (hn : n < 1000) :
    ∃ s', loopStep threeFiles (peakHours ratio) 0 0 s (roundAt (start + 30 * (n + 1))) = .ok s' ∧
      AtHalfMinute start (n + 1) s' := by
  obtain ⟨s₁, hissue⟩ := @exists_issue (peakHours ratio) s (by rw [h.iterSnap]; exact hn) (start + 30 * (n + 1))
  refine ⟨_, loopStep_of_issue (h.goesOn hn.le) h.timeElapsed hissue, ?_⟩
  obtain ⟨-, -, -, -, -, -, hru, hbase, helapsed⟩ := LoopState.issue_eq_ok hissue
  obtain ⟨hend, hbegin, hendSize⟩ := LoopState.issue_limits hissue
  have hio := LoopState.issue_beginio hissue
  rw [if_neg fun hio => h.beginio hio.1] at hio
  obtain ⟨-, ⟨-, -, hearly⟩ | ⟨hiter, hlast, -⟩⟩ := LoopState.issue_stat hissue
  · exact absurd (h.due hstart hn.le) (not_le.mpr hearly)
  · have hsize : s₁.beginSize < s₁.endSize := by
      rw [hbegin, hendSize]
      exact h.size
    have hlap : s₁.base ≤ (roundAt (start + 30 * (n + 1))).lap := by
      rw [hbase]
      exact h.base.trans (Nat.mul_le_mul_right _ (by omega))
    have hpos : 0 < s₁.timeElapsed := by
      rw [helapsed]
      exact h.timeElapsed
    refine atHalfMinute_advance (hend.trans h.endTime) hsize (hru.trans h.ruBegin) hpos hlap rfl rfl ?_ ?_ ?_
    · rw [hio]
      exact h.beginio
    · rw [hiter, h.iterSnap]
    · rw [hlast]
      exact u64_second (by omega)

/-- The start of the loop, at the second `start`. -/
def atStart (start : ℕ) : LoopState :=
  ⟨start, start + 30060, 2 ^ 64 - 2, 2 ^ 64 - 1, start, start * 1000000, 1, .init, []⟩

theorem loopInit_peakHours (start : ℕ) (hstart : start ≤ 2 ^ 32) (ratio : ℚ) :
    loopInit (peakHours ratio) (start * 1000000) (start * 1000000) =
      .ok (atStart start) := by
  have hsec : seconds (start * 1000000) = start := Nat.mul_div_cancel _ (by decide)
  have hend : ofInt64 ((start : ℤ) + 30060) = start + 30060 := by
    unfold ofInt64
    omega
  have hru : ofInt64 (start : ℤ) = start := by
    unfold ofInt64
    omega
  simp [loopInit, RunConf.timeLimits, RunConf.sizeLimits, peakHours, cInt, hsec, hend, hru, bind_ok, atStart]

/-- The first round only sets the time of the last slot. -/
theorem atHalfMinute_zero (hstart : start ≤ 2 ^ 32) : ∃ s',
    loopStep threeFiles (peakHours ratio) 0 0 (atStart start) (roundAt start) = .ok s' ∧ AtHalfMinute start 0 s' := by
  have hmeasured : (atStart start).measured = true := decide_eq_true (le_refl start)
  have hgo : (atStart start).GoesOn := ⟨Nat.lt_add_of_pos_right (by decide), by show 2 ^ 64 - 2 < 2 ^ 64 - 1; decide⟩
  obtain ⟨s₁, hissue⟩ := @exists_issue (peakHours ratio) (atStart start) (by show 0 < 1000; decide) start
  refine ⟨_, loopStep_of_issue hgo one_pos hissue, ?_⟩
  obtain ⟨-, -, -, -, -, -, hru, hbase, helapsed⟩ := LoopState.issue_eq_ok hissue
  obtain ⟨hend, hbegin, hendSize⟩ := LoopState.issue_limits hissue
  have hio := LoopState.issue_beginio hissue
  rw [if_pos ⟨rfl, hmeasured⟩, show (roundAt start).t1 = start * 1000000 from rfl, u64_second (by omega)] at hio
  have hfirst : (atStart start).lastSnapAt (roundAt start) = start * 1000000 := by
    rw [LoopState.lastSnapAt, if_pos ⟨rfl, hmeasured⟩]
    exact u64_second (by omega)
  have ht2 : u64 (roundAt start).t2 = start * 1000000 := u64_second (by omega)
  obtain ⟨-, ⟨hiter, hlast, -⟩ | ⟨-, -, htick⟩⟩ := LoopState.issue_stat hissue
  · have hsize : s₁.beginSize < s₁.endSize := by
      rw [hbegin, hendSize]
      exact hgo.2
    refine atHalfMinute_advance hend hsize hru ?_ hbase.le rfl rfl ?_ hiter (hlast.trans hfirst)
    · rw [helapsed]
      exact one_pos
    · rw [hio]
      omega
  · rw [hfirst, ht2] at htick
    omega

/-- The run, half minute by half minute. -/
theorem exists_atHalfMinute (hstart : start ≤ 2 ^ 32) (hn : n ≤ 1000) : ∃ s,
    loopRun threeFiles (peakHours ratio) 0 0 (halfMinutes start (n + 1)) (atStart start) = .ok s ∧
      AtHalfMinute start n s := by
  induction n with
  | zero =>
    obtain ⟨s, hstep, hs⟩ := @atHalfMinute_zero start ratio hstart
    refine ⟨s, ?_, hs⟩
    rw [halfMinutes]
    exact foldlM_cons_eq_ok.mpr ⟨s, hstep, rfl⟩
  | succ n ih =>
    obtain ⟨s, hrun, hs⟩ := ih (by omega)
    obtain ⟨s', hstep, hs'⟩ : ∃ s',
        loopStep threeFiles (peakHours ratio) 0 0 s (roundAt (start + 30 * (n + 1))) = .ok s' ∧
          AtHalfMinute start (n + 1) s' := hs.next hstart (by omega)
    refine ⟨s', ?_, hs'⟩
    rw [halfMinutes_succ]
    exact foldlM_append_eq_ok.mpr ⟨s, hrun, foldlM_cons_eq_ok.mpr ⟨s', hstep, rfl⟩⟩

end Hours

/-- A peak test of 501 minutes, from the second 1700000000 on with an operation every half minute: `main` takes it, and
the operation after 30030 seconds stores to slot 1000. -/
theorem peakHours_not_in_range : ∃ conf c s₀ s,
    mainConf threeProcesses (["-p", "-w", "-t501", "-fc"].map String.toList) = .ok conf ∧
    conf.flagTerminationTime = true ∧ conf.timeToRun = 30060 ∧ c ∈ conf.launchBenchmark ∧
    ClockFrom (1700000000 * 1000000) (halfMinutes 1700000000 1002) ∧
    loopInit (c.run conf) (1700000000 * 1000000) (1700000000 * 1000000) = .ok s₀ ∧
    loopRun threeFiles (c.run conf) 0 0 (halfMinutes 1700000000 1001) s₀ = .ok s ∧
    s.Stores (c.run conf) (roundAt 1700030030) 1000 ∧
    loopRun threeFiles (c.run conf) 0 0 (halfMinutes 1700000000 1002) s₀ = .error .undefined ∧
    ¬ SlotsInRange threeFiles (c.run conf) 0 0 (halfMinutes 1700000000 1002) s₀ := by
  have h : okWith (mainConf threeProcesses (["-p", "-w", "-t501", "-fc"].map String.toList)) fun conf =>
      conf.flagTerminationTime = true ∧ conf.timeToRun = 30060 ∧ conf.flagTerminationSize = false ∧
        conf.testtype = some .peak ∧ conf.numberOps = 0 ∧ conf.start = 0 ∧ conf.finish = 0 ∧
        conf.processCall 0 ∈ conf.launchBenchmark ∧ (conf.processCall 0).nproc = 3 := by
    decide +kernel
  obtain ⟨conf, hconf, h⟩ := exists_of_okWith h
  obtain ⟨htime, hduration, hsize, hpeak, hops, hstart, hfinish, hmem, hnproc⟩ := of_decide_eq_true h
  have hcall : (conf.processCall 0).run conf = peakHours (conf.processCall 0).ratio := by
    simp [ProcessCall.run, peakHours, htime, hduration, hsize, hpeak, hops, hstart, hfinish, hnproc]
  obtain ⟨s, hrun, hs⟩ := @exists_atHalfMinute 1700000000 1000 (conf.processCall 0).ratio (by norm_num) le_rfl
  have hinit := loopInit_peakHours 1700000000 (by norm_num) (conf.processCall 0).ratio
  have hgo := hs.goesOn le_rfl
  have hdue := hs.due (by norm_num) le_rfl
  have hstores : s.Stores (peakHours (conf.processCall 0).ratio) (roundAt 1700030030) 1000 := by
    refine ⟨hgo, rfl, hs.measured, ?_, ?_⟩
    · rw [s.lastSnapTime_counted, s.t1snap_counted]
      exact hdue
    · rw [s.iterSnap_counted, hs.iterSnap]
  have hall : halfMinutes 1700000000 1002 = halfMinutes 1700000000 1001 ++ [roundAt 1700030030] :=
    halfMinutes_succ 1700000000 1001
  have hclock := clockFrom_halfMinutes 1700000000 1002
  refine ⟨conf, conf.processCall 0, atStart 1700000000, s, hconf, htime, hduration, hmem, hclock, ?_, ?_, ?_, ?_,
    fun hrange => ?_⟩
  · rw [hcall]
    exact hinit
  · rw [hcall]
    exact hrun
  · rw [hcall]
    exact hstores
  · have hstep : loopStep threeFiles (peakHours (conf.processCall 0).ratio) 0 0 s (roundAt 1700030030) =
        .error .undefined := by
      rw [loopStep, issue_of_stores hstores le_rfl, if_neg (not_le.mpr hs.timeElapsed),
        if_pos (show (peakHours (conf.processCall 0).ratio).issues s = true from rfl), bind_error]
      exact if_pos hgo
    rw [hcall, loopRun, hall, List.foldlM_append]
    show ((loopRun threeFiles _ 0 0 (halfMinutes 1700000000 1001) _).bind fun u => _) = _
    rw [hrun]
    show (loopStep threeFiles _ 0 0 s (roundAt 1700030030)).bind _ = _
    rw [hstep]
    rfl
  · rw [hcall] at hrange
    exact absurd (hrange.loop _ _ [] s 1000 hall hrun hstores) (by decide)

end Dedisbench
