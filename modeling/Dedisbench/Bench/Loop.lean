import Dedisbench.Bench.Offsets
import Mathlib.Algebra.Order.Field.Rat
import Mathlib.Tactic.Linarith

/-!
# The loop of a process

The loop of `process_run`: when it goes on, when it issues an operation, what it counts and how it takes the
time.  What an operation does to the files is in `processWrite`; here it is the offset it goes to.  The
numbers that the program keeps in `double` are exact, and the clock counts microseconds.

`loopStep_eq_ok` says what a round can do, and every property of a run is derived from it.
-/

namespace Dedisbench

open ExceptRun

/-- `testtype` -/
inductive TestType where
  | peak
  | nominal
  deriving DecidableEq

/-- The arguments of `process_run` and the fields of `struct user_confs` that decide when an operation is
issued.  `ratio` is in operations a microsecond, `timeToRun` in seconds, `start` and `finish` in half
minutes. -/
structure RunConf where
  testtype : TestType
  ratio : ℚ
  nproc : ℕ
  flagTerminationTime : Bool
  flagTerminationSize : Bool
  timeToRun : ℤ
  numberOps : ℕ
  start : ℤ
  finish : ℤ

/-- What is noted of the operations between two snapshots. -/
structure Snapshot where
  throughput : ℚ
  latency : ℚ
  ops : ℕ
  time : ℕ

/-- The fields of `struct stats` that the loop works on.  `snaps` are the slots of the four arrays of
snapshots, as far as they have been assigned. -/
structure Stats where
  totOps : ℕ
  snapTotops : ℕ
  iterSnap : ℕ
  lastSnapTime : ℕ
  t1snap : ℕ
  snapLat : ℕ
  latency : ℕ
  beginio : ℕ
  endio : ℕ
  snaps : ℕ → Option Snapshot

/-- An operation that was issued: where it went, `time_elapsed` at that time, and whether the ramp-up was
over. -/
structure Issued where
  offset : ℕ
  timeElapsed : ℚ
  measured : Bool
  deriving DecidableEq

/-- The variables of the loop, and the operations issued so far. -/
structure LoopState where
  beginTime : ℕ
  endTime : ℕ
  beginSize : ℕ
  endSize : ℕ
  ruBegin : ℕ
  base : ℕ
  timeElapsed : ℚ
  stat : Stats
  issued : List Issued

/-- The environment of a round: the random numbers drawn, and the clock before and after the operation, at
`lap_time` and at the end of the round. -/
structure Tick where
  raws : List ℕ
  t1 : ℕ
  t2 : ℕ
  lap : ℕ
  tim : ℕ

/-- The ramp-up is over. -/
def LoopState.measured (s : LoopState) : Bool := s.ruBegin ≤ s.beginTime

/-- `tv_sec` -/
def seconds (t : ℕ) : ℕ := t / 1000000

/-- An integer stored in a `uint64_t`. -/
def ofInt64 (x : ℤ) : ℕ := (x % 2 ^ 64).toNat

/-- `struct stats stat = {.beginio = -1}` -/
def Stats.init : Stats := ⟨0, 0, 0, 0, 0, 0, 0, 2 ^ 64 - 1, 0, fun _ => none⟩

/-- `begin_time`, `end_time` and, if the test ends by time, `ru_begin`. -/
def RunConf.timeLimits (r : RunConf) (tim : ℕ) : Exec (ℕ × ℕ × Option ℕ) :=
  if r.flagTerminationTime then do
    let rampUp ← cInt (r.start * 30)
    let coolDown ← cInt (r.finish * 30)
    .ok (seconds tim, ofInt64 (seconds tim + r.timeToRun - coolDown), some (ofInt64 (seconds tim + rampUp)))
  else .ok (2 ^ 64 - 2, 2 ^ 64 - 1, none)

/-- `begin_size` and `end_size` -/
def RunConf.sizeLimits (r : RunConf) : Exec (ℕ × ℕ) :=
  if r.flagTerminationSize then
    if r.nproc = 0 then .error .divZero else .ok (0, r.numberOps / r.nproc)
  else .ok (2 ^ 64 - 2, 2 ^ 64 - 1)

/-- The variables before the loop, from the clock at the first two calls of `gettimeofday`.  A test that ends
by size has no ramp-up, and one without an end never sets `ru_begin`. -/
def loopInit (r : RunConf) (tim base : ℕ) : Exec LoopState := do
  let (beginTime, endTime, ruBegin) ← r.timeLimits tim
  let (beginSize, endSize) ← r.sizeLimits
  match if r.flagTerminationSize then some 0 else ruBegin with
  | none => .error .undefined
  | some ruBegin => .ok ⟨beginTime, endTime, beginSize, endSize, ruBegin, base, 1, .init, []⟩

/-- The clock readings around an operation. -/
def Stats.timed (st : Stats) (measured : Bool) (t1 t2 : ℕ) : Stats :=
  let st := { st with t1snap := u64 t2 }
  let st := if st.beginio = 2 ^ 64 - 1 ∧ measured then { st with beginio := u64 t1, lastSnapTime := st.t1snap } else st
  let st := if measured then
    { st with latency := st.latency + u64 (t2 + 2 ^ 64 - t1), snapLat := st.snapLat + u64 (t2 + 2 ^ 64 - t1) } else st
  { st with endio := u64 t2 }

/-- One more operation. -/
def Stats.counted (st : Stats) (measured : Bool) : Stats :=
  if measured then { st with totOps := u64 (st.totOps + 1), snapTotops := u64 (st.snapTotops + 1) } else st

/-- The snapshot of the operations since the last one. -/
def Stats.current (st : Stats) : Snapshot where
  throughput := st.snapTotops / (((st.t1snap + 2 ^ 64 - st.lastSnapTime : ℕ) % 2 ^ 64 : ℕ) / 1000000)
  latency := st.snapLat / st.snapTotops / 1000
  ops := st.snapTotops
  time := st.t1snap

/-- A snapshot every thirty seconds; the arrays have 1000 slots. -/
def Stats.snapshot (st : Stats) (measured : Bool) : Exec Stats :=
  if st.lastSnapTime + 30000000 ≤ st.t1snap then
    if measured ∧ 1000 ≤ st.iterSnap then .error .undefined
    else .ok { st with
      snaps := if measured then Function.update st.snaps st.iterSnap st.current else st.snaps
      iterSnap := st.iterSnap + 1
      snapLat := 0
      snapTotops := 0
      lastSnapTime := st.t1snap }
  else .ok st

/-- The throttle: a nominal test issues an operation as long as it is below the rate. -/
def RunConf.issues (r : RunConf) (s : LoopState) : Bool :=
  r.testtype = .peak || decide ((u64 (s.stat.totOps * r.nproc) : ℚ) / s.timeElapsed < r.ratio)

/-- An operation of the loop. -/
def LoopState.issue (conf : Conf) (r : RunConf) (cNurand idproc : ℕ) (s : LoopState) (t : Tick) : Exec LoopState := do
  let (iooffset, _) ← getIoposition conf s.stat.totOps cNurand idproc t.raws
  let stat ← ((s.stat.timed s.measured t.t1 t.t2).counted s.measured).snapshot s.measured
  .ok { s with
    stat
    beginSize := if r.flagTerminationSize then u64 (s.beginSize + 1) else s.beginSize
    issued := s.issued ++ [⟨iooffset, s.timeElapsed, s.measured⟩] }

/-- `time_elapsed += lap_time(&base)`, and the time of the next round. -/
def LoopState.advance (r : RunConf) (s : LoopState) (t : Tick) : LoopState :=
  { s with
    timeElapsed := s.timeElapsed + ((t.lap : ℚ) - s.base)
    base := t.lap
    beginTime := if r.flagTerminationTime then seconds t.tim else s.beginTime }

/-- A round of the loop; after its end, nothing.  The assertion on `time_elapsed` ends the program. -/
def loopStep (conf : Conf) (r : RunConf) (cNurand idproc : ℕ) (s : LoopState) (t : Tick) : Exec LoopState :=
  if s.beginTime < s.endTime ∧ s.beginSize < s.endSize then
    if s.timeElapsed ≤ 0 then .error .exit
    else do
      let s ← if r.issues s then s.issue conf r cNurand idproc t else .ok s
      .ok (s.advance r t)
  else .ok s

/-- The loop, over the clock readings and the draws of its rounds. -/
def loopRun (conf : Conf) (r : RunConf) (cNurand idproc : ℕ) (ticks : List Tick) (s : LoopState) : Exec LoopState :=
  ticks.foldlM (loopStep conf r cNurand idproc) s

/-! ### What a round can do -/

variable {conf : Conf} {r : RunConf} {cNurand idproc : ℕ} {s s' : LoopState} {t : Tick}

@[simp] theorem Stats.timed_totOps (st : Stats) (m : Bool) (t1 t2 : ℕ) : (st.timed m t1 t2).totOps = st.totOps := by
  unfold Stats.timed
  dsimp only
  split <;> split <;> rfl

theorem Stats.counted_totOps (st : Stats) (m : Bool) :
    (st.counted m).totOps = if m then u64 (st.totOps + 1) else st.totOps := by
  unfold Stats.counted
  split <;> rfl

theorem Stats.snapshot_totOps {st st' : Stats} {m : Bool} (h : st.snapshot m = .ok st') : st'.totOps = st.totOps := by
  unfold Stats.snapshot at h
  split at h
  · split at h
    · cases h
    · cases h; rfl
  · cases h; rfl

/-- What an operation changes. -/
theorem LoopState.issue_eq_ok (h : s.issue conf r cNurand idproc t = .ok s') :
    ∃ off rest, getIoposition conf s.stat.totOps cNurand idproc t.raws = .ok (off, rest) ∧
      s'.issued = s.issued ++ [⟨off, s.timeElapsed, s.measured⟩] ∧
      s'.stat.totOps = (if s.measured then u64 (s.stat.totOps + 1) else s.stat.totOps) ∧
      s'.beginTime = s.beginTime ∧ s'.ruBegin = s.ruBegin ∧ s'.base = s.base ∧ s'.timeElapsed = s.timeElapsed := by
  rw [LoopState.issue, bind_eq_ok] at h
  obtain ⟨⟨off, rest⟩, hoff, h⟩ := h
  simp only [bind_eq_ok] at h
  obtain ⟨stat, hstat, h⟩ := h
  cases h
  refine ⟨off, rest, hoff, rfl, ?_, rfl, rfl, rfl, rfl⟩
  show stat.totOps = _
  rw [Stats.snapshot_totOps hstat, Stats.counted_totOps, Stats.timed_totOps]

theorem LoopState.issue_limits (h : s.issue conf r cNurand idproc t = .ok s') : s'.endTime = s.endTime ∧
    s'.beginSize = (if r.flagTerminationSize then u64 (s.beginSize + 1) else s.beginSize) ∧ s'.endSize = s.endSize := by
  rw [LoopState.issue, bind_eq_ok] at h
  obtain ⟨⟨off, rest⟩, -, h⟩ := h
  simp only [bind_eq_ok] at h
  obtain ⟨stat, -, h⟩ := h
  cases h
  exact ⟨rfl, rfl, rfl⟩

/-- **A round**: the run is over, or time passes, behind an operation if one is due. -/
theorem loopStep_cases (h : loopStep conf r cNurand idproc s t = .ok s') :
    (¬ (s.beginTime < s.endTime ∧ s.beginSize < s.endSize) ∧ s' = s) ∨
    ((s.beginTime < s.endTime ∧ s.beginSize < s.endSize) ∧ 0 < s.timeElapsed ∧ ∃ s₁, s' = s₁.advance r t ∧
      (r.issues s = false ∧ s₁ = s ∨ r.issues s = true ∧ s.issue conf r cNurand idproc t = .ok s₁)) := by
  unfold loopStep at h
  split at h
  next hgoes =>
    split at h
    · cases h
    next hpos =>
      refine .inr ⟨hgoes, not_le.mp hpos, ?_⟩
      split at h
      next hissues =>
        simp only [bind_eq_ok] at h
        obtain ⟨s₁, hs₁, h⟩ := h
        cases h
        exact ⟨s₁, rfl, .inr ⟨hissues, hs₁⟩⟩
      next hissues =>
        cases h
        exact ⟨s, rfl, .inl ⟨by simpa using hissues, rfl⟩⟩
  next hgoes =>
    cases h
    exact .inl ⟨hgoes, rfl⟩

/-- What a round does, however it comes to do it. -/
theorem loopStep_eq_ok (h : loopStep conf r cNurand idproc s t = .ok s') :
    s' = s ∨ (0 < s.timeElapsed ∧ ∃ s₁, s' = s₁.advance r t ∧
      (s₁ = s ∨ (r.issues s = true ∧ s.issue conf r cNurand idproc t = .ok s₁))) := by
  rcases loopStep_cases h with ⟨-, rfl⟩ | ⟨-, hpos, s₁, rfl, ⟨-, rfl⟩ | hissue⟩
  · exact .inl rfl
  · exact .inr ⟨hpos, s₁, rfl, .inl rfl⟩
  · exact .inr ⟨hpos, s₁, rfl, .inr hissue⟩

/-! ### The clock -/

/-- From `now` on the clock never goes back. -/
def ClockFrom : ℕ → List Tick → Prop
  | _, [] => True
  | now, t :: ticks => now ≤ t.t1 ∧ t.t1 ≤ t.t2 ∧ t.t2 ≤ t.lap ∧ t.lap ≤ t.tim ∧ ClockFrom t.tim ticks

theorem ClockFrom.le_tim {ticks : List Tick} {now : ℕ} (h : ClockFrom now ticks) : ∀ t ∈ ticks, now ≤ t.tim := by
  induction ticks generalizing now with
  | nil => intro t ht; cases ht
  | cons t ticks ih =>
    obtain ⟨h1, h2, h3, h4, hrest⟩ := h
    intro u hu
    rcases List.mem_cons.mp hu with rfl | hu
    · omega
    · have hle := ih hrest u hu
      omega

/-- `time_elapsed` is the time since `base` was first taken. -/
theorem loopStep_elapsed (h : loopStep conf r cNurand idproc s t = .ok s') :
    s'.timeElapsed - s'.base = s.timeElapsed - s.base := by
  rcases loopStep_eq_ok h with rfl | ⟨-, s₁, rfl, rfl | ⟨-, hissue⟩⟩
  · rfl
  · simp only [LoopState.advance]
    ring
  · obtain ⟨_, _, -, -, -, -, -, hbase, helapsed⟩ := LoopState.issue_eq_ok hissue
    simp only [LoopState.advance, hbase, helapsed]
    ring

/-- With a clock that never goes back, time only grows, and no operation was issued later than now. -/
theorem loopRun_elapsed_le {ticks : List Tick} {now : ℕ} {from₀ : ℚ} :
    ∀ {s s' : LoopState}, ClockFrom now ticks → s.base ≤ now → from₀ ≤ s.timeElapsed →
      (∀ op ∈ s.issued, op.timeElapsed ≤ s.timeElapsed) → loopRun conf r cNurand idproc ticks s = .ok s' →
      from₀ ≤ s'.timeElapsed ∧ ∀ op ∈ s'.issued, op.timeElapsed ≤ s'.timeElapsed := by
  induction ticks generalizing now with
  | nil =>
    intro s s' _ _ hfrom hle h
    exact foldlM_nil_eq_ok.mp h ▸ ⟨hfrom, hle⟩
  | cons t ticks ih =>
    intro s s' hclock hbase hfrom hle h
    obtain ⟨u, hu, hloop⟩ := foldlM_cons_eq_ok.mp h
    obtain ⟨h1, h2, h3, h4, hrest⟩ := hclock
    have hlap : (s.base : ℚ) ≤ t.lap := by
      rw [Nat.cast_le]
      omega
    rcases loopStep_eq_ok hu with rfl | ⟨-, s₁, rfl, rfl | ⟨-, hissue⟩⟩
    · exact ih hrest (by omega) hfrom hle hloop
    · refine ih hrest (show t.lap ≤ t.tim from h4) ?_ ?_ hloop
      · show from₀ ≤ s₁.timeElapsed + (t.lap - s₁.base)
        linarith
      intro op hop
      have hop := hle op hop
      show op.timeElapsed ≤ s₁.timeElapsed + (t.lap - s₁.base)
      linarith
    · obtain ⟨off, rest, -, hissued, -, -, -, hbase₁, helapsed⟩ := LoopState.issue_eq_ok hissue
      refine ih hrest (show t.lap ≤ t.tim from h4) ?_ ?_ hloop
      · show from₀ ≤ s₁.timeElapsed + (t.lap - s₁.base)
        rw [hbase₁, helapsed]
        linarith
      intro op hop
      have hold : op.timeElapsed ≤ s.timeElapsed := by
        rcases List.mem_append.mp (hissued ▸ hop : op ∈ s.issued ++ _) with hop | hop
        · exact hle op hop
        · rw [List.mem_singleton.mp hop]
      show op.timeElapsed ≤ s₁.timeElapsed + (t.lap - s₁.base)
      rw [hbase₁, helapsed]
      linarith

end Dedisbench
