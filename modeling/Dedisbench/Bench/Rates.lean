import Dedisbench.Bench.Accepted
import Dedisbench.Bench.Pace
import Dedisbench.Bench.Seeds
import Mathlib.Algebra.Order.Floor.Semiring
import Mathlib.Data.Rat.Floor

/-!
# The rates of the processes

`-n`, `-nr` and `-nw` all set the rate that `main` checks, and the latter two the one of the readers and the one of the
writers as well.  `launch_benchmark` gives the rate that has been checked to the processes of a test that is not mixed,
and one of the others to each process of a mixed test.  So a mixed test has usable rates exactly if the last `-nw` and
the last `-nr` were positive (`usable_iff`), and a process with another rate idles for ever.
-/

namespace Dedisbench

open ExceptRun

/-! ### What is launched -/

/-- A call of `process_run`. -/
structure ProcessCall where
  idproc : ℕ
  nproc : ℕ
  ratio : ℚ
  iotype : Option IoType
  deriving DecidableEq

/-- The call in child `i` of `launch_benchmark`. -/
def UserConfs.processCall (conf : UserConfs) (i : ℕ) : ProcessCall :=
  let nprocs := conf.nprocs.toNat
  if conf.mixedIO then
    if i < nprocs / 2 then ⟨i, nprocs / 2, conf.ratiow, some .write⟩
    else ⟨i - nprocs / 2, nprocs / 2, conf.ratior, some .read⟩
  else ⟨i, nprocs, conf.ratio, conf.iotype⟩

/-- `launch_benchmark`: one child for each process. -/
def UserConfs.launchBenchmark (conf : UserConfs) : List ProcessCall :=
  (List.range conf.nprocs.toNat).map conf.processCall

/-- What the loop of `process_run` goes by. -/
def ProcessCall.run (conf : UserConfs) (c : ProcessCall) : RunConf where
  testtype := if conf.testtype = some .peak then .peak else .nominal
  ratio := c.ratio
  nproc := c.nproc
  flagTerminationTime := conf.flagTerminationTime
  flagTerminationSize := conf.flagTerminationSize
  timeToRun := conf.timeToRun
  numberOps := conf.numberOps
  start := conf.start
  finish := conf.finish

/-! ### What a rate is good for -/

/-- From lap to lap, at least a microsecond passes; a round that idles takes 4000. -/
def Ticking : ℕ → List Tick → Prop
  | _, [] => True
  | base, t :: ticks => base < t.lap ∧ Ticking t.lap ticks

/-- The process cannot idle for ever: from every state, a run that issues nothing and is not at its end has come through
a bounded number of rounds. -/
def RunConf.Busy (r : RunConf) : Prop :=
  ∀ s : LoopState, ∃ n, ∀ conf cNurand idproc ticks s', Ticking s.base ticks →
    loopRun conf r cNurand idproc ticks s = .ok s' → s'.issued = s.issued → s'.GoesOn → ticks.length ≤ n

/-- **A usable rate**: whatever has been done so far, the throttle opens when enough time has passed. -/
structure ProcessCall.Usable (conf : UserConfs) (c : ProcessCall) : Prop where
  ratio : 0 < c.ratio
  throttle : ∀ totOps, ∃ bound : ℚ, ∀ s : LoopState, s.stat.totOps = totOps → bound < s.timeElapsed →
    (c.run conf).issues s = true
  busy : (c.run conf).Busy

/-- The process never issues an operation, and, if it is to end by size alone, goes on for ever. -/
structure RunConf.Starved (r : RunConf) : Prop where
  issued : ∀ conf cNurand idproc tim base ticks s₀ s, loopInit r tim base = .ok s₀ →
    loopRun conf r cNurand idproc ticks s₀ = .ok s → s.issued = []
  endless : r.flagTerminationSize = true → r.flagTerminationTime = false → 1 ≤ r.numberOps / r.nproc →
    ∀ conf cNurand idproc tim base ticks, Ticking base ticks → ∃ s₀ s, loopInit r tim base = .ok s₀ ∧
      loopRun conf r cNurand idproc ticks s₀ = .ok s ∧ s.GoesOn

section Throttle

variable {conf : Conf} {r : RunConf} {cNurand idproc : ℕ} {s s' : LoopState} {t : Tick} {ticks : List Tick}

/-- With a positive rate, the throttle is closed up to a time that the operations so far decide. -/
theorem RunConf.issues_of_lt (hratio : 0 < r.ratio)
    (h : (u64 (s.stat.totOps * r.nproc) : ℚ) / r.ratio < s.timeElapsed) : r.issues s = true := by
  have hnonneg : (0 : ℚ) ≤ (u64 (s.stat.totOps * r.nproc) : ℚ) / r.ratio := div_nonneg (Nat.cast_nonneg _) hratio.le
  have hpos : 0 < s.timeElapsed := hnonneg.trans_lt h
  have hlt : (u64 (s.stat.totOps * r.nproc) : ℚ) / s.timeElapsed < r.ratio := by
    rw [div_lt_iff₀ hpos]
    rw [div_lt_iff₀ hratio] at h
    linarith
  simp [RunConf.issues, hlt]

/-- Without one it is always closed. -/
theorem RunConf.issues_of_nonpos (hnominal : r.testtype = .nominal) (hratio : r.ratio ≤ 0) (hpos : 0 < s.timeElapsed) :
    r.issues s = false := by
  have hnonneg : (0 : ℚ) ≤ (u64 (s.stat.totOps * r.nproc) : ℚ) / s.timeElapsed := div_nonneg (Nat.cast_nonneg _) hpos.le
  have hnot : ¬ (u64 (s.stat.totOps * r.nproc) : ℚ) / s.timeElapsed < r.ratio := not_lt.mpr (hratio.trans hnonneg)
  simp [RunConf.issues, hnominal, hnot]

theorem loopStep_issued_le (h : loopStep conf r cNurand idproc s t = .ok s') : s.issued.length ≤ s'.issued.length := by
  rcases loopStep_eq_ok h with rfl | ⟨-, s₁, rfl, rfl | ⟨-, hissue⟩⟩
  · exact le_rfl
  · exact le_rfl
  · obtain ⟨off, rest, -, hissued, -⟩ := LoopState.issue_eq_ok hissue
    show s.issued.length ≤ s₁.issued.length
    rw [hissued, List.length_append]
    exact Nat.le_add_right _ _

theorem loopRun_issued_le (h : loopRun conf r cNurand idproc ticks s = .ok s') : s.issued.length ≤ s'.issued.length :=
  foldlM_inv (P := fun u => s.issued.length ≤ u.issued.length)
    (fun _ _ _ _ hle hstep => hle.trans (loopStep_issued_le hstep)) le_rfl h

/-- Behind its end, the loop does nothing. -/
theorem loopRun_of_ended (hend : ¬ s.GoesOn) (h : loopRun conf r cNurand idproc ticks s = .ok s') : s' = s := by
  refine foldlM_inv (P := fun u => u = s) (fun u t u' _ hu hstep => ?_) rfl h
  subst hu
  rcases loopStep_cases hstep with ⟨-, rfl⟩ | ⟨hgo, -⟩
  · rfl
  · exact absurd hgo hend

/-- A round that issues nothing, in a run that is not at its end. -/
theorem loopStep_idle (hgo : s.GoesOn) (h : loopStep conf r cNurand idproc s t = .ok s')
    (hissued : s'.issued.length ≤ s.issued.length) : r.issues s = false ∧ s' = s.advance r t := by
  rcases loopStep_cases h with ⟨hend, -⟩ | ⟨-, -, s₁, rfl, ⟨hissues, rfl⟩ | ⟨-, hissue⟩⟩
  · exact absurd hgo hend
  · exact ⟨hissues, rfl⟩
  · obtain ⟨off, rest, -, happend, -⟩ := LoopState.issue_eq_ok hissue
    have hlen : s₁.issued.length ≤ s.issued.length := hissued
    rw [happend, List.length_append, List.length_singleton] at hlen
    omega

/-- **How long a process idles**: until the throttle opens. -/
theorem length_le_of_idle (hratio : 0 < r.ratio) {bound : ℚ}
    (hbound : (u64 (s.stat.totOps * r.nproc) : ℚ) / r.ratio = bound)
    (hticks : Ticking s.base ticks) (h : loopRun conf r cNurand idproc ticks s = .ok s')
    (hissued : s'.issued = s.issued) (hgo : s'.GoesOn) :
    ticks = [] ∨ s.timeElapsed + ticks.length ≤ bound + 1 := by
  induction ticks generalizing s with
  | nil => exact .inl rfl
  | cons t ticks ih =>
    have hgoes : s.GoesOn := by
      by_contra hend
      exact hend (loopRun_of_ended hend h ▸ hgo)
    obtain ⟨u, hu, hrest⟩ := foldlM_cons_eq_ok.mp h
    have hle := loopRun_issued_le hrest
    rw [hissued] at hle
    obtain ⟨hissues, rfl⟩ := loopStep_idle hgoes hu hle
    have hclosed : s.timeElapsed ≤ bound := by
      by_contra hlt
      rw [RunConf.issues_of_lt hratio (hbound ▸ not_le.mp hlt)] at hissues
      cases hissues
    have hlap : (s.base : ℚ) + 1 ≤ t.lap := by
      have hlt := hticks.1
      exact_mod_cast hlt
    rw [List.length_cons, Nat.cast_add, Nat.cast_one]
    rcases @ih (s.advance r t) hbound hticks.2 hrest hissued with rfl | hsum
    · rw [List.length_nil, Nat.cast_zero]
      exact .inr (by linarith)
    · have hsum : s.timeElapsed + (t.lap - s.base) + ticks.length ≤ bound + 1 := hsum
      exact .inr (by linarith)

theorem RunConf.busy_of_pos (hratio : 0 < r.ratio) : r.Busy := by
  intro s
  refine ⟨⌈(u64 (s.stat.totOps * r.nproc) : ℚ) / r.ratio + 1 - s.timeElapsed⌉₊, ?_⟩
  intro conf cNurand idproc ticks s' hticks h hissued hgo
  rcases length_le_of_idle hratio rfl hticks h hissued hgo with rfl | hle
  · exact Nat.zero_le _
  · have hceil := Nat.le_ceil ((u64 (s.stat.totOps * r.nproc) : ℚ) / r.ratio + 1 - s.timeElapsed)
    have hlen : (ticks.length : ℚ) ≤ ⌈(u64 (s.stat.totOps * r.nproc) : ℚ) / r.ratio + 1 - s.timeElapsed⌉₊ := by
      linarith
    exact_mod_cast hlen

/-- Without a positive rate, nothing is issued. -/
theorem loopRun_of_nonpos (hnominal : r.testtype = .nominal) (hratio : r.ratio ≤ 0)
    (h : loopRun conf r cNurand idproc ticks s = .ok s') : s'.issued = s.issued := by
  refine foldlM_inv (P := fun u => u.issued = s.issued) (fun u t u' _ hu hstep => ?_) rfl h
  rcases loopStep_cases hstep with ⟨-, rfl⟩ | ⟨-, hpos, s₁, rfl, ⟨-, rfl⟩ | ⟨hissues, -⟩⟩
  · exact hu
  · exact hu
  · rw [RunConf.issues_of_nonpos hnominal hratio hpos] at hissues
    cases hissues

/-- And the loop goes on, as long as the clock does. -/
theorem exists_loopRun_of_nonpos (hnominal : r.testtype = .nominal) (hratio : r.ratio ≤ 0)
    (htime : r.flagTerminationTime = false) (hticks : Ticking s.base ticks) (hgo : s.GoesOn) (hpos : 0 < s.timeElapsed) :
    ∃ s', loopRun conf r cNurand idproc ticks s = .ok s' ∧ s'.GoesOn := by
  induction ticks generalizing s with
  | nil => exact ⟨s, rfl, hgo⟩
  | cons t ticks ih =>
    have hstep : loopStep conf r cNurand idproc s t = .ok (s.advance r t) := by
      rw [loopStep, RunConf.issues_of_nonpos hnominal hratio hpos, if_neg (not_le.mpr hpos)]
      exact if_pos hgo
    have hlap : (s.base : ℚ) < t.lap := by
      have hlt := hticks.1
      exact_mod_cast hlt
    have hgo' : (s.advance r t).GoesOn := by
      simp only [LoopState.GoesOn, LoopState.advance, htime]
      exact hgo
    have hpos' : 0 < (s.advance r t).timeElapsed := by
      show 0 < s.timeElapsed + ((t.lap : ℚ) - s.base)
      linarith
    obtain ⟨s', hs', hgoes⟩ := ih hticks.2 hgo' hpos'
    exact ⟨s', foldlM_cons_eq_ok.mpr ⟨_, hstep, hs'⟩, hgoes⟩

/-- The start of a test that ends by size alone. -/
theorem loopInit_size (hsize : r.flagTerminationSize = true) (htime : r.flagTerminationTime = false)
    (hnproc : r.nproc ≠ 0) (tim base : ℕ) : loopInit r tim base =
      .ok ⟨2 ^ 64 - 2, 2 ^ 64 - 1, 0, r.numberOps / r.nproc, 0, base, 1, .init, []⟩ := by
  simp [loopInit, RunConf.timeLimits, RunConf.sizeLimits, hsize, htime, hnproc, bind_ok]

theorem RunConf.starved_of_nonpos (hnominal : r.testtype = .nominal) (hratio : r.ratio ≤ 0) : r.Starved := by
  constructor
  · intro conf cNurand idproc tim base ticks s₀ s hinit hrun
    rw [loopRun_of_nonpos hnominal hratio hrun]
    exact (loopInit_eq_ok hinit).2.1
  · intro hsize htime hshare conf cNurand idproc tim base ticks hticks
    have hnproc : r.nproc ≠ 0 := by
      rintro hzero
      rw [hzero, Nat.div_zero] at hshare
      exact absurd hshare (by decide)
    have hinit := loopInit_size hsize htime hnproc tim base
    obtain ⟨s, hrun, hgo⟩ := @exists_loopRun_of_nonpos conf r cNurand idproc
      ⟨2 ^ 64 - 2, 2 ^ 64 - 1, 0, r.numberOps / r.nproc, 0, base, 1, .init, []⟩ ticks hnominal hratio htime hticks
      ⟨(by decide : 2 ^ 64 - 2 < 2 ^ 64 - 1), hshare⟩ one_pos
    exact ⟨_, s, hinit, hrun, hgo⟩

variable {confs : UserConfs} {c : ProcessCall} {i : ℕ}

theorem mem_launchBenchmark : c ∈ confs.launchBenchmark ↔ ∃ i < confs.nprocs.toNat, confs.processCall i = c := by
  simp [UserConfs.launchBenchmark]

theorem UserConfs.processCall_plain (h : confs.mixedIO = false) :
    confs.processCall i = ⟨i, confs.nprocs.toNat, confs.ratio, confs.iotype⟩ := by
  simp [processCall, h]

theorem UserConfs.processCall_mixed (h : confs.mixedIO = true) : (confs.processCall i).ratio =
    if i < confs.nprocs.toNat / 2 then confs.ratiow else confs.ratior := by
  simp only [processCall, h, if_true]
  split <;> rfl

theorem ProcessCall.run_nominal (hnominal : confs.testtype = some .nominal) : (c.run confs).testtype = .nominal := by
  simp [ProcessCall.run, hnominal]

theorem ProcessCall.usable_of_pos (hratio : 0 < c.ratio) : c.Usable confs := by
  refine ⟨hratio, fun totOps => ⟨(u64 (totOps * c.nproc) : ℚ) / c.ratio, fun s hs hlt => ?_⟩, RunConf.busy_of_pos hratio⟩
  exact RunConf.issues_of_lt hratio (hs ▸ hlt)

end Throttle

/-! ### What the command line sets -/

/-- The rate for the readers, `-nr`, or the writers, `-nw`. -/
def Opt.rate (kind : Char) : Opt → Option ℤ
  | .n (c :: arg) => if c = kind then some (atoi arg) else none
  | _ => none

/-- The last rate of a kind. -/
def lastRate (kind : Char) (opts : List Opt) : Option ℤ := (opts.filterMap (Opt.rate kind)).getLast?

section Given

variable {env : Environment} {argv : List (List Char)} {conf : UserConfs}

/-- `-nr` sets the rate of the readers, `-nw` the one of the writers. -/
theorem NecessaryConfs.setRatio_rates (conf : NecessaryConfs) (arg : List Char) :
    (conf.setRatio arg).ratior = ((Opt.rate 'r' (.n arg)).map fun x : ℤ => (x : ℚ)).getD conf.ratior ∧
      (conf.setRatio arg).ratiow = ((Opt.rate 'w' (.n arg)).map fun x : ℤ => (x : ℚ)).getD conf.ratiow := by
  rcases arg with _ | ⟨c, arg⟩
  · exact ⟨rfl, rfl⟩
  · by_cases hr : c = 'r'
    · subst hr
      exact ⟨rfl, rfl⟩
    by_cases hw : c = 'w'
    · subst hw
      exact ⟨rfl, rfl⟩
    simp [setRatio, Opt.rate, hr, hw]

theorem given_ratior (opts : List Opt) :
    (given opts).ratior = ((lastRate 'r' opts).map fun x : ℤ => (x : ℚ)).getD (-1) := by
  refine foldl_last (φ := NecessaryConfs.ratior) (fun conf o => ?_) opts .init
  cases o with
  | n arg => exact (conf.setRatio_rates arg).1
  | _ => rfl

theorem given_ratiow (opts : List Opt) :
    (given opts).ratiow = ((lastRate 'w' opts).map fun x : ℤ => (x : ℚ)).getD (-1) := by
  refine foldl_last (φ := NecessaryConfs.ratiow) (fun conf o => ?_) opts .init
  cases o with
  | n arg => exact (conf.setRatio_rates arg).2
  | _ => rfl

theorem getD_rate_pos {rate : Option ℤ} :
    0 < (rate.map fun x : ℤ => (x : ℚ)).getD (-1) / 1000000 ↔ 0 < rate.getD (-1) := by
  cases rate with
  | none => norm_num
  | some x => simp [div_pos_iff_of_pos_right]

/-- **When every process gets a usable rate**, in a nominal test that `main` accepts: it is not mixed, or the last `-nw`
and the last `-nr` are there and positive, as far as there are processes that take them.  A process without a usable
rate never issues an operation. -/
theorem usable_iff (h : mainConf env argv = .ok conf) (hnominal : conf.testtype = some .nominal) :
    ((∀ c ∈ conf.launchBenchmark, c.Usable conf) ↔ (Opt.m ∈ options argv →
      (2 ≤ conf.nprocs → 0 < (lastRate 'w' (options argv)).getD (-1)) ∧
      (1 ≤ conf.nprocs → 0 < (lastRate 'r' (options argv)).getD (-1)))) ∧
    ∀ c ∈ conf.launchBenchmark, ¬ c.Usable conf → (c.run conf).Starved := by
  obtain ⟨o, -, -, -, haccept⟩ := accept_of_mainConf h
  obtain ⟨hvalid, hconv⟩ := valid_of_accept haccept
  have husable : (∀ c ∈ conf.launchBenchmark, c.Usable conf) ↔
      ∀ i < conf.nprocs.toNat, 0 < (conf.processCall i).ratio := by
    constructor
    · exact fun hall i hi => (hall _ (mem_launchBenchmark.mpr ⟨i, hi, rfl⟩)).ratio
    · intro hall c hc
      obtain ⟨i, hi, rfl⟩ := mem_launchBenchmark.mp hc
      exact ProcessCall.usable_of_pos (hall i hi)
  refine ⟨husable.trans ?_, fun c hc hnot => ?_⟩
  · have hm : conf.mixedIO = true ↔ Opt.m ∈ options argv := by
      rw [hconv.mixedIO]
      exact given_mixedIO
    by_cases hmixed : conf.mixedIO = true
    · have hgiven : NecessaryConfs.mixedIO (given (options argv)) = true := hconv.mixedIO.symm.trans hmixed
      have hw : 0 < conf.ratiow ↔ 0 < (lastRate 'w' (options argv)).getD (-1) := by
        rw [hconv.ratiow, if_pos hgiven, given_ratiow, getD_rate_pos]
      have hr : 0 < conf.ratior ↔ 0 < (lastRate 'r' (options argv)).getD (-1) := by
        rw [hconv.ratior, if_pos hgiven, given_ratior, getD_rate_pos]
      simp only [UserConfs.processCall_mixed hmixed, hm.mp hmixed, true_imp_iff, ← hw, ← hr]
      constructor
      · intro hall
        refine ⟨fun h2 => ?_, fun h1 => ?_⟩
        · have hfirst := hall 0 (by omega)
          rwa [if_pos (by omega)] at hfirst
        · -- the last process is a reader
          have hlast := hall (conf.nprocs.toNat - 1) (by omega)
          rwa [if_neg (by omega)] at hlast
      · rintro ⟨hwriters, hreaders⟩ i hi
        split
        next hlt => exact hwriters (by omega)
        next => exact hreaders (by omega)
    · have hplain : conf.mixedIO = false := by simpa using hmixed
      have hratio : 0 < conf.ratio := by
        rw [hconv.ratio]
        exact div_pos (hvalid.ratio (hconv.testtype.symm.trans hnominal)) (by norm_num)
      simp only [UserConfs.processCall_plain hplain]
      exact ⟨fun _ hmem => absurd (hm.mpr hmem) hmixed, fun _ _ _ => hratio⟩
  · have hle : c.ratio ≤ 0 := not_lt.mp fun hlt => hnot (ProcessCall.usable_of_pos hlt)
    exact RunConf.starved_of_nonpos (ProcessCall.run_nominal hnominal) hle

end Given

/-- A mixed test with a rate for the readers and one for the writers, of one megabyte. -/
theorem twoRates_usable : ∃ conf, mainConf twoConfigs (["-m", "-nr100", "-nw50", "-s1", "-fc"].map String.toList) =
    .ok conf ∧ conf.testtype = some .nominal ∧ conf.nprocs = 4 ∧ ∀ c ∈ conf.launchBenchmark, c.Usable conf := by
  have h : okWith (mainConf twoConfigs (["-m", "-nr100", "-nw50", "-s1", "-fc"].map String.toList)) fun conf =>
      conf.testtype = some .nominal ∧ conf.nprocs = 4 := by
    decide +kernel
  obtain ⟨conf, hconf, h⟩ := exists_of_okWith h
  obtain ⟨hnominal, hnprocs⟩ := of_decide_eq_true h
  exact ⟨conf, hconf, hnominal, hnprocs, (usable_iff hconf hnominal).1.mpr fun _ =>
    ⟨fun _ => by decide, fun _ => by decide⟩⟩

/-- A mixed test of one megabyte with `-n` alone: no process has a rate, and each goes on for ever. -/
theorem oneRate_not_usable : ∃ conf c, mainConf twoConfigs (["-m", "-n100", "-s1", "-fc"].map String.toList) = .ok conf ∧
    conf.testtype = some .nominal ∧ c ∈ conf.launchBenchmark ∧ c.ratio < 0 ∧ ¬ c.Usable conf ∧
    (c.run conf).flagTerminationSize = true ∧ (c.run conf).flagTerminationTime = false ∧
    1 ≤ (c.run conf).numberOps / (c.run conf).nproc ∧ (c.run conf).Starved := by
  have h : okWith (mainConf twoConfigs (["-m", "-n100", "-s1", "-fc"].map String.toList)) fun conf =>
      conf.testtype = some .nominal ∧ ⟨0, 2, -1 / 1000000, some .write⟩ ∈ conf.launchBenchmark ∧
        conf.flagTerminationSize = true ∧ conf.flagTerminationTime = false ∧ 1 ≤ conf.numberOps / 2 := by
    decide +kernel
  obtain ⟨conf, hconf, h⟩ := exists_of_okWith h
  obtain ⟨hnominal, hmem, hsize, htime, hops⟩ := of_decide_eq_true h
  have hneg : (-1 / 1000000 : ℚ) < 0 := by norm_num
  refine ⟨conf, _, hconf, hnominal, hmem, hneg, fun husable => absurd husable.ratio (not_lt.mpr hneg.le), hsize, htime,
    hops, ?_⟩
  exact RunConf.starved_of_nonpos (ProcessCall.run_nominal hnominal) hneg.le

end Dedisbench
