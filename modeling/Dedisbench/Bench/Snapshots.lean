import Dedisbench.Bench.Pace

/-!
# Snapshots

A snapshot closes a slot: every thirty seconds in the loop, and once more after it.  During the ramp-up slots are
closed, too, and nothing is noted in them; `write_snaplat_data` and `write_snapthr_data` leave out the slots up to
`start`, half minutes that the ramp-up takes.  `printed_slots_recorded` says that every slot they print has been
recorded.
-/

namespace Dedisbench

open ExceptRun

/-- The last snapshot, after the loop. -/
def Stats.lastSnapshot (st : Stats) (measured : Bool) : Exec Stats :=
  if st.lastSnapTime < st.t1snap then
    if measured ∧ 1000 ≤ st.iterSnap then .error .undefined
    else .ok { st with
      snaps := if measured then Function.update st.snaps st.iterSnap st.current else st.snaps
      iterSnap := st.iterSnap + 1
      lastSnapTime := st.t1snap
      snapLat := 0
      snapTotops := 0 }
  else .ok st

variable {conf : Conf} {r : RunConf} {cNurand idproc tim now : ℕ} {s₀ s s' : LoopState} {t : Tick} {ticks : List Tick}
  {st st' : Stats}

/-! ### What a round does to the slots -/

/-- A slot is closed: with the operations counted since the last one if the ramp-up is over, and else with nothing. -/
structure Closes (st st' : Stats) (measured : Bool) (ops : ℕ) : Prop where
  iterSnap : st'.iterSnap = st.iterSnap + 1
  snapTotops : st'.snapTotops = 0
  recorded : measured = true → ∃ snap : Snapshot, snap.ops = ops ∧
    st'.snaps = Function.update st.snaps st.iterSnap (some snap)
  unrecorded : measured = false → st'.snaps = st.snaps

/-- No slot is closed. -/
structure Keeps (st st' : Stats) (ops : ℕ) : Prop where
  iterSnap : st'.iterSnap = st.iterSnap
  snapTotops : st'.snapTotops = ops
  snaps : st'.snaps = st.snaps

/-- The operations since the last snapshot, after one more. -/
def Stats.opsAfter (st : Stats) (measured : Bool) : ℕ := if measured then u64 (st.snapTotops + 1) else st.snapTotops

theorem Stats.timed_eq (st : Stats) (m : Bool) (t1 t2 : ℕ) : (st.timed m t1 t2).iterSnap = st.iterSnap ∧
    (st.timed m t1 t2).snaps = st.snaps ∧ (st.timed m t1 t2).snapTotops = st.snapTotops ∧
    (st.timed m t1 t2).t1snap = u64 t2 ∧ (m = false → (st.timed m t1 t2).lastSnapTime = st.lastSnapTime) := by
  unfold Stats.timed
  dsimp only
  refine ⟨?_, ?_, ?_, ?_, fun hm => ?_⟩
  · split <;> split <;> rfl
  · split <;> split <;> rfl
  · split <;> split <;> rfl
  · split <;> split <;> rfl
  · simp [hm]

theorem Stats.counted_eq (st : Stats) (m : Bool) : (st.counted m).iterSnap = st.iterSnap ∧
    (st.counted m).snaps = st.snaps ∧ (st.counted m).snapTotops = st.opsAfter m ∧
    (st.counted m).t1snap = st.t1snap ∧ (st.counted m).lastSnapTime = st.lastSnapTime := by
  unfold Stats.counted Stats.opsAfter
  cases m <;> simp

theorem Stats.snapshot_eq_ok {m : Bool} (h : st.snapshot m = .ok st') :
    (Keeps st st' st.snapTotops ∧ st'.lastSnapTime = st.lastSnapTime) ∨
    (Closes st st' m st.snapTotops ∧ st.lastSnapTime + 30000000 ≤ st.t1snap ∧ st'.lastSnapTime = st.t1snap) := by
  unfold Stats.snapshot at h
  split at h
  next htick =>
    split at h
    · cases h
    · cases h
      refine .inr ⟨⟨rfl, rfl, fun hm => ?_, fun hm => ?_⟩, htick, rfl⟩
      · exact ⟨st.current, rfl, if_pos hm⟩
      · exact if_neg (by simp [hm])
  next =>
    cases h
    exact .inl ⟨⟨rfl, rfl, rfl⟩, rfl⟩

theorem Stats.lastSnapshot_eq_ok {m : Bool} (h : st.lastSnapshot m = .ok st') :
    (st' = st ∧ st.t1snap ≤ st.lastSnapTime) ∨
    (Closes st st' m st.snapTotops ∧ st.lastSnapTime < st.t1snap) := by
  unfold Stats.lastSnapshot at h
  split at h
  next hlater =>
    split at h
    · cases h
    · cases h
      refine .inr ⟨⟨rfl, rfl, fun hm => ?_, fun hm => ?_⟩, hlater⟩
      · exact ⟨st.current, rfl, if_pos hm⟩
      · exact if_neg (by simp [hm])
  next hnot =>
    cases h
    exact .inl ⟨rfl, not_lt.mp hnot⟩

/-- **What an operation does to the slots**: it is counted, and then a slot may be closed.  In the ramp-up it takes
thirty seconds since the slot before. -/
theorem LoopState.issue_slots (h : s.issue conf r cNurand idproc t = .ok s') :
    (Keeps s.stat s'.stat (s.stat.opsAfter s.measured) ∧
      (s.measured = false → s'.stat.lastSnapTime = s.stat.lastSnapTime)) ∨
    (Closes s.stat s'.stat s.measured (s.stat.opsAfter s.measured) ∧ s'.stat.lastSnapTime = u64 t.t2 ∧
      (s.measured = false → s.stat.lastSnapTime + 30000000 ≤ u64 t.t2)) := by
  rw [LoopState.issue, bind_eq_ok] at h
  obtain ⟨⟨off, rest⟩, -, h⟩ := h
  simp only [bind_eq_ok] at h
  obtain ⟨stat, hstat, h⟩ := h
  cases h
  obtain ⟨hiter, hsnaps, hops, ht1, hlast⟩ := Stats.counted_eq (s.stat.timed s.measured t.t1 t.t2) s.measured
  obtain ⟨hiter', hsnaps', hops', ht1', hlast'⟩ := Stats.timed_eq s.stat s.measured t.t1 t.t2
  have hopsAfter : (s.stat.timed s.measured t.t1 t.t2).opsAfter s.measured = s.stat.opsAfter s.measured := by
    rw [Stats.opsAfter, hops', Stats.opsAfter]
  rcases Stats.snapshot_eq_ok hstat with ⟨hkeeps, hsame⟩ | ⟨hcloses, htick, htime⟩
  · refine .inl ⟨⟨?_, ?_, ?_⟩, fun hm => ?_⟩
    · exact hkeeps.iterSnap.trans (hiter.trans hiter')
    · exact hkeeps.snapTotops.trans (hops.trans hopsAfter)
    · exact hkeeps.snaps.trans (hsnaps.trans hsnaps')
    · exact hsame.trans (hlast.trans (hlast' hm))
  · rw [ht1, ht1'] at htick htime
    refine .inr ⟨⟨?_, hcloses.snapTotops, fun hm => ?_, fun hm => ?_⟩, htime, fun hm => ?_⟩
    · rw [hcloses.iterSnap, hiter, hiter']
    · obtain ⟨snap, hsnap, heq⟩ := hcloses.recorded hm
      refine ⟨snap, by rw [hsnap, hops, hopsAfter], ?_⟩
      rw [heq, hsnaps, hsnaps', hiter, hiter']
    · rw [hcloses.unrecorded hm, hsnaps, hsnaps']
    · rw [hlast, hlast' hm] at htick
      exact htick

/-! ### The ramp-up -/

/-- What holds in the loop, with `now` the last time on the clock.  The slots that the ramp-up closes lie thirty
seconds apart, and the first of them not before the start. -/
structure RampUp (r : RunConf) (tim now : ℕ) (s : LoopState) : Prop where
  begin_le : s.beginTime ≤ seconds now
  ruBegin_le : (s.ruBegin : ℤ) ≤ seconds tim + r.start * 30
  tim_le : tim ≤ now
  slots : s.measured = false → s.stat.iterSnap = 0 ∨ ∃ τ ≤ now, s.stat.lastSnapTime = u64 τ ∧
    seconds τ ≤ s.beginTime ∧ seconds tim * 1000000 + 30000000 * (s.stat.iterSnap - 1) ≤ τ

/-- **During the ramp-up no slot beyond `start` is open.** -/
theorem RampUp.iterSnap_le (h : RampUp r tim now s) (hstart : 0 ≤ r.start) (hm : s.measured = false) :
    (s.stat.iterSnap : ℤ) ≤ r.start := by
  have hbefore : s.beginTime < s.ruBegin := not_le.mp (of_decide_eq_false hm)
  have hru := h.ruBegin_le
  rcases h.slots hm with h0 | ⟨τ, -, -, hbegin, hτ⟩
  · rw [h0]
    exact hstart
  · have hsec : seconds tim + 30 * (s.stat.iterSnap - 1) ≤ seconds τ := by
      unfold seconds at hτ ⊢
      omega
    omega

theorem seconds_mono {m n : ℕ} (h : m ≤ n) : seconds m ≤ seconds n := Nat.div_le_div_right h

/-- Thirty seconds on a counter that may have wrapped are at least thirty seconds. -/
theorem add_le_of_u64_add_le {m n d : ℕ} (hmn : m ≤ n) (h : u64 m + d ≤ u64 n) : m + d ≤ n := by
  have hdiv : m / 2 ^ 64 ≤ n / 2 ^ 64 := Nat.div_le_div_right hmn
  have hm := Nat.div_add_mod m (2 ^ 64)
  have hn := Nat.div_add_mod n (2 ^ 64)
  unfold u64 at h
  omega

/-- The round that ends at `t.tim` is in the ramp-up only if its start was. -/
theorem RampUp.advance {s₁ : LoopState} (h : RampUp r tim now s) (htime : r.flagTerminationTime = true)
    (htim : now ≤ t.tim) (hru : s₁.ruBegin = s.ruBegin)
    (hslots : s.measured = false → s₁.stat.iterSnap = 0 ∨ ∃ τ ≤ t.tim, s₁.stat.lastSnapTime = u64 τ ∧
      seconds tim * 1000000 + 30000000 * (s₁.stat.iterSnap - 1) ≤ τ) : RampUp r tim t.tim (s₁.advance r t) := by
  have hbegin : (s₁.advance r t).beginTime = seconds t.tim := if_pos htime
  refine ⟨hbegin.le, ?_, h.tim_le.trans htim, fun hm => ?_⟩
  · rw [LoopState.advance, hru]
    exact h.ruBegin_le
  · have hm : s.measured = false := by
      have hbefore : seconds t.tim < s.ruBegin := hru ▸ hbegin ▸ not_le.mp (of_decide_eq_false hm)
      have hle := h.begin_le.trans (seconds_mono htim)
      exact decide_eq_false (by omega)
    rcases hslots hm with h0 | ⟨τ, hτ, hlast, hle⟩
    · exact .inl h0
    · exact .inr ⟨τ, hτ, hlast, hbegin ▸ seconds_mono hτ, hle⟩

/-- **Every round keeps it.** -/
theorem RampUp.step (h : RampUp r tim now s) (htime : r.flagTerminationTime = true) (h1 : now ≤ t.t1)
    (h2 : t.t1 ≤ t.t2) (h3 : t.t2 ≤ t.lap) (h4 : t.lap ≤ t.tim)
    (hstep : loopStep conf r cNurand idproc s t = .ok s') : RampUp r tim t.tim s' := by
  have htim : now ≤ t.tim := by omega
  -- the slots as they were, seen at the end of the round
  have hsame : s.measured = false → s.stat.iterSnap = 0 ∨ ∃ τ ≤ t.tim, s.stat.lastSnapTime = u64 τ ∧
      seconds tim * 1000000 + 30000000 * (s.stat.iterSnap - 1) ≤ τ := by
    intro hm
    rcases h.slots hm with h0 | ⟨τ, hτ, hlast, -, hle⟩
    · exact .inl h0
    · exact .inr ⟨τ, hτ.trans htim, hlast, hle⟩
  rcases loopStep_eq_ok hstep with rfl | ⟨-, s₁, rfl, rfl | ⟨-, hissue⟩⟩
  · refine ⟨h.begin_le.trans (seconds_mono htim), h.ruBegin_le, h.tim_le.trans htim, fun hm => ?_⟩
    rcases h.slots hm with h0 | ⟨τ, hτ, hrest⟩
    · exact .inl h0
    · exact .inr ⟨τ, hτ.trans htim, hrest⟩
  · exact h.advance htime htim rfl hsame
  · obtain ⟨-, -, -, -, -, -, hru, -⟩ := LoopState.issue_eq_ok hissue
    refine h.advance htime htim hru fun hm => ?_
    rcases LoopState.issue_slots hissue with ⟨hkeeps, hlast⟩ | ⟨hcloses, hlast, htick⟩
    · rw [hkeeps.iterSnap, hlast hm]
      exact hsame hm
    · -- a slot is closed, at `t.t2`
      refine .inr ⟨t.t2, by omega, hlast, ?_⟩
      rw [hcloses.iterSnap, Nat.add_sub_cancel]
      rcases h.slots hm with h0 | ⟨τ, hτ, hτlast, -, hle⟩
      · have hstart := h.tim_le
        rw [h0]
        unfold seconds
        omega
      · have hgap := add_le_of_u64_add_le (m := τ) (n := t.t2) (by omega) (hτlast ▸ htick hm)
        omega

theorem ofInt64_le {x : ℤ} (h : 0 ≤ x) : (ofInt64 x : ℤ) ≤ x := by
  unfold ofInt64
  omega

theorem RampUp.start (htime : r.flagTerminationTime = true) (hstart : 0 ≤ r.start) {base : ℕ} (htim : tim ≤ base)
    (hinit : loopInit r tim base = .ok s) : RampUp r tim base s := by
  obtain ⟨hstat, -, -, -⟩ := loopInit_eq_ok hinit
  obtain ⟨hbegin, hlimits⟩ := loopInit_limits hinit
  have hzero : s.stat.iterSnap = 0 := by
    rw [hstat]
    rfl
  have hru : (s.ruBegin : ℤ) ≤ seconds tim + r.start * 30 := by
    rcases hlimits with ⟨-, hru⟩ | ⟨-, -, hru⟩
    · rw [hru]
      omega
    · rw [hru]
      exact ofInt64_le (by omega)
  exact ⟨(hbegin htime).le.trans (seconds_mono htim), hru, htim, fun _ => .inl hzero⟩

/-! ### Slots that stay unrecorded -/

theorem Closes.snaps_of_ne {m : Bool} {ops i : ℕ} (h : Closes st st' m ops) (hi : i ≠ st.iterSnap) :
    st'.snaps i = st.snaps i := by
  cases m with
  | false => rw [h.unrecorded rfl]
  | true =>
    obtain ⟨snap, -, heq⟩ := h.recorded rfl
    rw [heq, Function.update_of_ne hi]

/-- Only the ramp-up closes a slot without a snapshot. -/
theorem Closes.measured_of_none {m : Bool} {ops : ℕ} (h : Closes st st' m ops) (hnone : st'.snaps st.iterSnap = none) :
    m = false := by
  by_contra hm
  obtain ⟨snap, -, heq⟩ := h.recorded (by simpa using hm)
  rw [heq, Function.update_self] at hnone
  cases hnone

theorem loopStep_slots (h : loopStep conf r cNurand idproc s t = .ok s') :
    ∃ ops, Keeps s.stat s'.stat ops ∨ Closes s.stat s'.stat s.measured ops := by
  rcases loopStep_eq_ok h with rfl | ⟨-, s₁, rfl, rfl | ⟨-, hissue⟩⟩
  · exact ⟨_, .inl ⟨rfl, rfl, rfl⟩⟩
  · exact ⟨_, .inl ⟨rfl, rfl, rfl⟩⟩
  · rcases LoopState.issue_slots hissue with ⟨hkeeps, -⟩ | ⟨hcloses, -⟩
    · exact ⟨_, .inl ⟨hkeeps.iterSnap, hkeeps.snapTotops, hkeeps.snaps⟩⟩
    · exact ⟨_, .inr ⟨hcloses.iterSnap, hcloses.snapTotops, hcloses.recorded, hcloses.unrecorded⟩⟩

/-- Slot `i` is open at some time of the ramp-up. -/
def OpenInRampUp (conf : Conf) (r : RunConf) (cNurand idproc : ℕ) (ticks : List Tick) (s₀ : LoopState) (i : ℕ) : Prop :=
  ∃ k u, loopRun conf r cNurand idproc (ticks.take k) s₀ = .ok u ∧ u.measured = false ∧ u.stat.iterSnap = i

theorem OpenInRampUp.cons {i : ℕ} (hstep : loopStep conf r cNurand idproc s t = .ok s')
    (h : OpenInRampUp conf r cNurand idproc ticks s' i) : OpenInRampUp conf r cNurand idproc (t :: ticks) s i := by
  obtain ⟨k, u, hu, hm, hi⟩ := h
  exact ⟨k + 1, u, foldlM_cons_eq_ok.mpr ⟨s', hstep, hu⟩, hm, hi⟩

/-- What a run does to the slots: those closed before it stay as they are, and one that it closes without a snapshot
is closed in the ramp-up, and not beyond `start`. -/
structure SlotsOf (conf : Conf) (r : RunConf) (cNurand idproc tim : ℕ) (ticks : List Tick) (s s' : LoopState) : Prop where
  rampUp : ∃ now, RampUp r tim now s'
  mono : s.stat.iterSnap ≤ s'.stat.iterSnap
  before : ∀ i < s.stat.iterSnap, s'.stat.snaps i = s.stat.snaps i
  unrecorded : ∀ i, s.stat.iterSnap ≤ i → i < s'.stat.iterSnap → s'.stat.snaps i = none →
    (i : ℤ) ≤ r.start ∧ OpenInRampUp conf r cNurand idproc ticks s i

theorem loopRun_slots (htime : r.flagTerminationTime = true) (hstart : 0 ≤ r.start) (h : RampUp r tim now s)
    (hclock : ClockFrom now ticks) (hrun : loopRun conf r cNurand idproc ticks s = .ok s') :
    SlotsOf conf r cNurand idproc tim ticks s s' := by
  induction ticks generalizing now s with
  | nil =>
    obtain rfl := foldlM_nil_eq_ok.mp hrun
    exact ⟨⟨now, h⟩, le_rfl, fun _ _ => rfl, fun i hle hlt => by omega⟩
  | cons t ticks ih =>
    obtain ⟨u, hstep, hrun⟩ := foldlM_cons_eq_ok.mp hrun
    obtain ⟨h1, h2, h3, h4, hrest⟩ := hclock
    have hu := ih (h.step htime h1 h2 h3 h4 hstep) hrest hrun
    obtain ⟨ops, hkeeps | hcloses⟩ := loopStep_slots hstep
    · have hiter := hkeeps.iterSnap
      refine ⟨hu.rampUp, hiter ▸ hu.mono, fun i hi => ?_, fun i hle hlt hnone => ?_⟩
      · rw [hu.before i (by omega), hkeeps.snaps]
      · obtain ⟨hi, hopen⟩ := hu.unrecorded i (by omega) hlt hnone
        exact ⟨hi, hopen.cons hstep⟩
    · have hiter := hcloses.iterSnap
      have hmono := hu.mono
      refine ⟨hu.rampUp, by omega, fun i hi => ?_, fun i hle hlt hnone => ?_⟩
      · rw [hu.before i (by omega), hcloses.snaps_of_ne (by omega)]
      · rcases Nat.eq_or_lt_of_le hle with rfl | hlater
        · -- the slot that this round closes
          rw [hu.before _ (by omega)] at hnone
          have hm := hcloses.measured_of_none hnone
          exact ⟨h.iterSnap_le hstart hm, 0, s, rfl, hm, rfl⟩
        · obtain ⟨hi, hopen⟩ := hu.unrecorded i (by omega) hlt hnone
          exact ⟨hi, hopen.cons hstep⟩

/-- The last snapshot leaves a slot unrecorded only in the ramp-up, too. -/
theorem SlotsOf.unrecorded_last (h : SlotsOf conf r cNurand idproc tim ticks s₀ s) (hstart : 0 ≤ r.start)
    (hzero : s₀.stat.iterSnap = 0) (hrun : loopRun conf r cNurand idproc ticks s₀ = .ok s)
    (hlast : s.stat.lastSnapshot s.measured = .ok st) {i : ℕ} (hi : i < st.iterSnap) (hnone : st.snaps i = none) :
    (i : ℤ) ≤ r.start ∧ OpenInRampUp conf r cNurand idproc ticks s₀ i := by
  rcases Stats.lastSnapshot_eq_ok hlast with ⟨rfl, -⟩ | ⟨hcloses, -⟩
  · exact h.unrecorded i (by omega) hi hnone
  · rw [hcloses.iterSnap] at hi
    rcases Nat.lt_succ_iff_lt_or_eq.mp hi with hlt | rfl
    · rw [hcloses.snaps_of_ne hlt.ne] at hnone
      exact h.unrecorded i (by omega) hlt hnone
    · -- the slot closed after the loop
      obtain ⟨now, hrampUp⟩ := h.rampUp
      have hm := hcloses.measured_of_none hnone
      refine ⟨hrampUp.iterSnap_le hstart hm, ticks.length, s, ?_, hm, rfl⟩
      rw [List.take_length]
      exact hrun

theorem loopInit_iterSnap {base : ℕ} (hinit : loopInit r tim base = .ok s) : s.stat.iterSnap = 0 := by
  rw [(loopInit_eq_ok hinit).1]
  rfl

/-- **Every slot that is printed has been recorded.**  In a test that ends by time, with any latencies and a clock
that never goes back, a slot closed in the loop or after it that has no snapshot was open in the ramp-up, and is none
of those from `start + 1` on that are printed. -/
theorem printed_slots_recorded {base : ℕ} (htime : r.flagTerminationTime = true) (hstart : 0 ≤ r.start)
    (htim : tim ≤ base) (hclock : ClockFrom base ticks) (hinit : loopInit r tim base = .ok s₀)
    (hrun : loopRun conf r cNurand idproc ticks s₀ = .ok s) (hlast : s.stat.lastSnapshot s.measured = .ok st) :
    (∀ i : ℕ, r.start + 1 ≤ i → i < st.iterSnap → ∃ snap, st.snaps i = some snap) ∧
    ∀ i < st.iterSnap, st.snaps i = none → (i : ℤ) ≤ r.start ∧ OpenInRampUp conf r cNurand idproc ticks s₀ i := by
  have hslots := loopRun_slots htime hstart (.start htime hstart htim hinit) hclock hrun
  have hunrecorded := fun i hi hnone =>
    hslots.unrecorded_last hstart (loopInit_iterSnap hinit) hrun hlast (i := i) hi hnone
  refine ⟨fun i hle hi => ?_, hunrecorded⟩
  cases hsnap : st.snaps i with
  | none =>
    have hstart' := (hunrecorded i hi hsnap).1
    omega
  | some snap => exact ⟨snap, rfl⟩

/-- A round with one operation, all of it at the second `t`. -/
def atSecond (t : ℕ) : Tick := ⟨[], t * 1000000, t * 1000000, t * 1000000, t * 1000000⟩

/-- Two slots are closed in a ramp-up of half a minute, and the third one is printed. -/
theorem peakMinute_printed : ∃ s₀ s st, loopInit (peakMinute 1) 100000000 100000000 = .ok s₀ ∧
    loopRun inOrder (peakMinute 1) 0 0 [atSecond 101, atSecond 131, atSecond 140, atSecond 161] s₀ = .ok s ∧
    s.stat.lastSnapshot s.measured = .ok st ∧ st.iterSnap = 3 ∧ st.snaps 0 = none ∧ st.snaps 1 = none ∧
    ∃ snap, st.snaps 2 = some snap := by
  have h : okWith (loopInit (peakMinute 1) 100000000 100000000) fun s₀ =>
      okWith (loopRun inOrder (peakMinute 1) 0 0 [atSecond 101, atSecond 131, atSecond 140, atSecond 161] s₀) fun s =>
        okWith (s.stat.lastSnapshot s.measured) fun st =>
          st.iterSnap = 3 ∧ (st.snaps 0).isNone ∧ (st.snaps 1).isNone := by
    decide +kernel
  obtain ⟨s₀, hinit, h⟩ := exists_of_okWith h
  obtain ⟨s, hrun, h⟩ := exists_of_okWith h
  obtain ⟨st, hlast, h⟩ := exists_of_okWith h
  obtain ⟨hiter, hzero, hone⟩ := of_decide_eq_true h
  refine ⟨s₀, s, st, hinit, hrun, hlast, hiter, Option.isNone_iff_eq_none.mp hzero, Option.isNone_iff_eq_none.mp hone, ?_⟩
  refine (printed_slots_recorded rfl (by decide) le_rfl ?_ hinit hrun hlast).1 2 (by decide) (by omega)
  simp [ClockFrom, atSecond]

end Dedisbench
