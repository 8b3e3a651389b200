import Mathlib.Algebra.BigOperators.Intervals
import Dedisbench.Bench.Snapshots

/-!
# Operations that are reported

The operations that are measured are noted in the slots of the snapshots, and the slots from `start + 1` on are
printed.  `opsIn` counts the operations noted in some of the slots; it grows by one with every operation that is
measured while one of these is open, and never else (`loopStep_opsIn`).  So the series that is printed has every
operation exactly if each was measured in a slot that is printed, and the last slot was closed (`reported_once_iff`).
-/

namespace Dedisbench

open ExceptRun

variable {conf : Conf} {r : RunConf} {cNurand idproc tim now : ℕ} {s₀ s s' u : LoopState} {t : Tick}
  {ticks : List Tick} {st st' : Stats} {A : Finset ℕ}

/-! ### What is printed -/

/-- `snap_ops[i]` -/
def Stats.slotOps (st : Stats) (i : ℕ) : ℕ := ((st.snaps i).map Snapshot.ops).getD 0

/-- The slots that `write_snaplat_data` and `write_snapthr_data` print. -/
def printedSlots (r : RunConf) (st : Stats) : Finset ℕ := Finset.Ico (r.start + 1).toNat st.iterSnap

/-- **Every measured operation is reported once**: the slots printed have been recorded, and their operations add up
to `tot_ops`. -/
def ReportedOnce (r : RunConf) (st : Stats) : Prop :=
  (∀ i ∈ printedSlots r st, ∃ snap, st.snaps i = some snap) ∧
    ∑ i ∈ printedSlots r st, st.slotOps i = st.totOps

/-- The round that begins issues an operation that is measured. -/
def LoopState.IssuesMeasured (r : RunConf) (s : LoopState) : Prop :=
  (s.beginTime < s.endTime ∧ s.beginSize < s.endSize) ∧ r.issues s = true ∧ s.measured = true

/-- Every round of a run begins in a state with `P`. -/
def EveryRound (conf : Conf) (r : RunConf) (cNurand idproc : ℕ) (ticks : List Tick) (s₀ : LoopState)
    (P : LoopState → Prop) : Prop :=
  ∀ k < ticks.length, ∀ u, loopRun conf r cNurand idproc (ticks.take k) s₀ = .ok u → P u

theorem everyRound_cons {P : LoopState → Prop} (hstep : loopStep conf r cNurand idproc s t = .ok u) :
    EveryRound conf r cNurand idproc (t :: ticks) s P ↔ P s ∧ EveryRound conf r cNurand idproc ticks u P := by
  constructor
  · intro h
    refine ⟨h 0 (Nat.succ_pos _) s rfl, fun k hk v hv => h (k + 1) (Nat.succ_lt_succ hk) v ?_⟩
    exact foldlM_cons_eq_ok.mpr ⟨u, hstep, hv⟩
  · rintro ⟨hs, hu⟩ k hk v hv
    cases k with
    | zero => exact foldlM_nil_eq_ok.mp hv ▸ hs
    | succ k =>
      obtain ⟨u', hu', hv⟩ := foldlM_cons_eq_ok.mp hv
      obtain rfl := Except.ok.inj (hstep.symm.trans hu')
      exact hu k (Nat.lt_of_succ_lt_succ hk) v hv

theorem everyRound_congr {P Q : LoopState → Prop} (h : ∀ u, P u ↔ Q u) :
    EveryRound conf r cNurand idproc ticks s P ↔ EveryRound conf r cNurand idproc ticks s Q :=
  forall_congr' fun _ => forall_congr' fun _ => forall_congr' fun u => forall_congr' fun _ => h u

/-! ### The operations noted in some of the slots -/

/-- The operations noted in the slots `A`, with those since the last snapshot if the open slot is one of them. -/
def Stats.opsIn (st : Stats) (A : Finset ℕ) : ℕ :=
  ∑ i ∈ A, st.slotOps i + if st.iterSnap ∈ A then st.snapTotops else 0

/-- The number of operations measured. -/
def LoopState.countMeasured (s : LoopState) : ℕ := s.issued.countP Issued.measured

theorem Keeps.opsIn {ops : ℕ} (h : Keeps st st' ops) (A : Finset ℕ) :
    st'.opsIn A = ∑ i ∈ A, st.slotOps i + if st.iterSnap ∈ A then ops else 0 := by
  rw [Stats.opsIn, h.iterSnap, h.snapTotops]
  simp only [Stats.slotOps, h.snaps]

theorem Closes.slotOps {m : Bool} {ops : ℕ} (h : Closes st st' m ops) (hopen : st.snaps st.iterSnap = none)
    (hops : m = false → ops = 0) (i : ℕ) : st'.slotOps i = st.slotOps i + if i = st.iterSnap then ops else 0 := by
  by_cases hi : i = st.iterSnap
  · subst hi
    have hzero : st.slotOps st.iterSnap = 0 := by rw [Stats.slotOps, hopen]; rfl
    rw [if_pos rfl, hzero, Nat.zero_add]
    cases m with
    | false =>
      rw [Stats.slotOps, h.unrecorded rfl, hopen, hops rfl]
      rfl
    | true =>
      obtain ⟨snap, hsnap, heq⟩ := h.recorded rfl
      rw [Stats.slotOps, heq, Function.update_self, Option.map_some, Option.getD_some, hsnap]
  · rw [if_neg hi, Nat.add_zero, Stats.slotOps, h.snaps_of_ne hi, Stats.slotOps]

theorem Closes.sum_slotOps {m : Bool} {ops : ℕ} (h : Closes st st' m ops) (hopen : st.snaps st.iterSnap = none)
    (hops : m = false → ops = 0) (A : Finset ℕ) :
    ∑ i ∈ A, st'.slotOps i = ∑ i ∈ A, st.slotOps i + if st.iterSnap ∈ A then ops else 0 := by
  simp only [h.slotOps hopen hops, Finset.sum_add_distrib, Finset.sum_ite_eq']

theorem Closes.opsIn {m : Bool} {ops : ℕ} (h : Closes st st' m ops) (hopen : st.snaps st.iterSnap = none)
    (hops : m = false → ops = 0) (A : Finset ℕ) :
    st'.opsIn A = ∑ i ∈ A, st.slotOps i + if st.iterSnap ∈ A then ops else 0 := by
  rw [Stats.opsIn, h.sum_slotOps hopen hops, h.snapTotops, ite_self, Nat.add_zero]

/-- What a round does, as far as the operations measured go. -/
theorem loopStep_measured (h : loopStep conf r cNurand idproc s t = .ok s') :
    (s.IssuesMeasured r ∧ s'.countMeasured = s.countMeasured + 1 ∧
      (Keeps s.stat s'.stat (u64 (s.stat.snapTotops + 1)) ∨
        Closes s.stat s'.stat true (u64 (s.stat.snapTotops + 1)))) ∨
    (¬ s.IssuesMeasured r ∧ s'.countMeasured = s.countMeasured ∧
      (Keeps s.stat s'.stat s.stat.snapTotops ∨
        s.measured = false ∧ Closes s.stat s'.stat false s.stat.snapTotops)) := by
  have hsame : ∀ s₁ : LoopState, s₁.issued = s.issued → s₁.stat = s.stat → s₁.countMeasured = s.countMeasured ∧
      Keeps s.stat s₁.stat s.stat.snapTotops := by
    intro s₁ hissued hstat
    rw [LoopState.countMeasured, hissued, hstat]
    exact ⟨rfl, rfl, rfl, rfl⟩
  rcases loopStep_cases h with ⟨hgoes, rfl⟩ | ⟨hgoes, -, s₁, rfl, ⟨hissues, rfl⟩ | ⟨hissues, hissue⟩⟩
  · obtain ⟨hcount, hkeeps⟩ := hsame s' rfl rfl
    exact .inr ⟨fun hmeasured => hgoes hmeasured.1, hcount, .inl hkeeps⟩
  · obtain ⟨hcount, hkeeps⟩ := hsame (s₁.advance r t) rfl rfl
    exact .inr ⟨fun hmeasured => absurd hmeasured.2.1 (by simp [hissues]), hcount, .inl hkeeps⟩
  · obtain ⟨off, rest, -, hissued, -⟩ := LoopState.issue_eq_ok hissue
    have hcount : s₁.countMeasured = s.countMeasured + if s.measured then 1 else 0 := by
      rw [LoopState.countMeasured, hissued, List.countP_append, List.countP_singleton]
      rfl
    cases hm : s.measured with
    | true =>
      rw [hm, if_pos rfl] at hcount
      refine .inl ⟨⟨hgoes, hissues, hm⟩, hcount, ?_⟩
      rcases LoopState.issue_slots hissue with ⟨hkeeps, -⟩ | ⟨hcloses, -⟩
      · rw [Stats.opsAfter, if_pos hm] at hkeeps
        exact .inl ⟨hkeeps.iterSnap, hkeeps.snapTotops, hkeeps.snaps⟩
      · rw [Stats.opsAfter, if_pos hm, hm] at hcloses
        exact .inr ⟨hcloses.iterSnap, hcloses.snapTotops, hcloses.recorded, hcloses.unrecorded⟩
    | false =>
      have hnot : ¬ s.measured = true := by simp [hm]
      rw [if_neg hnot, Nat.add_zero] at hcount
      refine .inr ⟨fun hmeasured => hnot hmeasured.2.2, hcount, ?_⟩
      rcases LoopState.issue_slots hissue with ⟨hkeeps, -⟩ | ⟨hcloses, -⟩
      · rw [Stats.opsAfter, if_neg hnot] at hkeeps
        exact .inl ⟨hkeeps.iterSnap, hkeeps.snapTotops, hkeeps.snaps⟩
      · rw [Stats.opsAfter, if_neg hnot, hm] at hcloses
        exact .inr ⟨rfl, hcloses.iterSnap, hcloses.snapTotops, hcloses.recorded, hcloses.unrecorded⟩

/-! ### The invariant -/

theorem loopStep_begin (h : loopStep conf r cNurand idproc s t = .ok s') : s'.ruBegin = s.ruBegin ∧
    (s'.beginTime = s.beginTime ∨ r.flagTerminationTime = true ∧ s'.beginTime = seconds t.tim) := by
  have hadvance : ∀ s₁ : LoopState, s₁.beginTime = s.beginTime → (s₁.advance r t).beginTime = s.beginTime ∨
      r.flagTerminationTime = true ∧ (s₁.advance r t).beginTime = seconds t.tim := by
    intro s₁ hbegin
    by_cases htime : r.flagTerminationTime = true
    · exact .inr ⟨htime, if_pos htime⟩
    · exact .inl ((if_neg htime).trans hbegin)
  rcases loopStep_eq_ok h with rfl | ⟨-, s₁, rfl, rfl | ⟨-, hissue⟩⟩
  · exact ⟨rfl, .inl rfl⟩
  · exact ⟨rfl, hadvance _ rfl⟩
  · obtain ⟨-, -, -, -, -, hbegin, hru, -⟩ := LoopState.issue_eq_ok hissue
    exact ⟨hru, hadvance s₁ hbegin⟩

/-- What holds in the loop, with `now` the last time on the clock: the slots closed and the open one have all the
operations measured, which come after the ramp-up. -/
structure Noted (r : RunConf) (now : ℕ) (s : LoopState) : Prop where
  timed : s.ruBegin = 0 ∨ r.flagTerminationTime = true ∧ s.beginTime ≤ seconds now
  notYet : ∀ i, s.stat.iterSnap ≤ i → s.stat.snaps i = none
  rampUp : s.measured = false → s.countMeasured = 0
  total : s.countMeasured < 2 ^ 64 → ∀ A, Finset.range (s.stat.iterSnap + 1) ⊆ A → s.stat.opsIn A = s.countMeasured

theorem Noted.snapTotops_le (h : Noted r now s) (hlt : s.countMeasured < 2 ^ 64) :
    s.stat.snapTotops ≤ s.countMeasured := by
  have htotal := h.total hlt _ Finset.Subset.rfl
  rw [Stats.opsIn, if_pos (Finset.self_mem_range_succ _)] at htotal
  omega

/-- The ramp-up does not come back. -/
theorem Noted.measured_of_step (h : Noted r now s) (htim : now ≤ t.tim)
    (hstep : loopStep conf r cNurand idproc s t = .ok s') (hm : s'.measured = false) : s.measured = false := by
  obtain ⟨hru, hbegin⟩ := loopStep_begin hstep
  have hbefore : s'.beginTime < s'.ruBegin := not_le.mp (of_decide_eq_false hm)
  refine decide_eq_false (not_le.mpr ?_)
  rcases hbegin with hbegin | ⟨-, hbegin⟩
  · omega
  · rcases h.timed with hzero | ⟨-, hle⟩
    · omega
    · have hmono := seconds_mono htim
      omega

/-- **An operation that is measured is noted in the open slot**, and nothing else is noted. -/
theorem Noted.step_opsIn (h : Noted r now s) (hstep : loopStep conf r cNurand idproc s t = .ok s')
    (hlt : s'.countMeasured < 2 ^ 64) (A : Finset ℕ) :
    (s.IssuesMeasured r ∧ s.stat.iterSnap ∈ A ∧ s'.stat.opsIn A = s.stat.opsIn A + 1) ∨
    (¬ (s.IssuesMeasured r ∧ s.stat.iterSnap ∈ A) ∧ s'.stat.opsIn A = s.stat.opsIn A) := by
  have hopen := h.notYet _ le_rfl
  rcases loopStep_measured hstep with ⟨hmeasured, hcount, hslots⟩ | ⟨hnot, hcount, hslots⟩
  · have hops : s'.stat.opsIn A = ∑ i ∈ A, s.stat.slotOps i +
        if s.stat.iterSnap ∈ A then u64 (s.stat.snapTotops + 1) else 0 := by
      rcases hslots with hkeeps | hcloses
      · exact hkeeps.opsIn A
      · exact hcloses.opsIn hopen (fun hm => by cases hm) A
    have hle := h.snapTotops_le (by omega)
    have hwrap : u64 (s.stat.snapTotops + 1) = s.stat.snapTotops + 1 := Nat.mod_eq_of_lt (by omega)
    rw [hwrap] at hops
    by_cases hA : s.stat.iterSnap ∈ A
    · refine .inl ⟨hmeasured, hA, ?_⟩
      rw [hops, Stats.opsIn, if_pos hA, if_pos hA]
      omega
    · refine .inr ⟨fun hboth => hA hboth.2, ?_⟩
      rw [hops, Stats.opsIn, if_neg hA, if_neg hA]
  · refine .inr ⟨fun hboth => hnot hboth.1, ?_⟩
    rcases hslots with hkeeps | ⟨hm, hcloses⟩
    · exact hkeeps.opsIn A
    · have hzero : s.stat.snapTotops = 0 := by
        have hle := h.snapTotops_le (by omega)
        have hnone := h.rampUp hm
        omega
      exact hcloses.opsIn hopen (fun _ => hzero) A

/-- **Every round keeps the invariant.** -/
theorem Noted.step (h : Noted r now s) (htim : now ≤ t.tim) (hstep : loopStep conf r cNurand idproc s t = .ok s') :
    Noted r t.tim s' := by
  obtain ⟨hru, hbegin⟩ := loopStep_begin hstep
  refine ⟨?_, ?_, ?_, ?_⟩
  · rcases h.timed with hzero | ⟨htime, hle⟩
    · exact .inl (hru.trans hzero)
    · refine .inr ⟨htime, ?_⟩
      rcases hbegin with hbegin | ⟨-, hbegin⟩
      · exact hbegin.le.trans (hle.trans (seconds_mono htim))
      · exact hbegin.le
  · intro i hi
    obtain ⟨ops, hkeeps | hcloses⟩ := loopStep_slots hstep
    · rw [hkeeps.snaps]
      exact h.notYet i (hkeeps.iterSnap ▸ hi)
    · have hiter := hcloses.iterSnap
      rw [hcloses.snaps_of_ne (by omega)]
      exact h.notYet i (by omega)
  · intro hm
    have hm' := h.measured_of_step htim hstep hm
    rcases loopStep_measured hstep with ⟨hmeasured, -⟩ | ⟨-, hcount, -⟩
    · rw [hmeasured.2.2] at hm'
      cases hm'
    · rw [hcount, h.rampUp hm']
  · intro hlt A hA
    have hle : s.stat.iterSnap ≤ s'.stat.iterSnap := by
      obtain ⟨ops, hkeeps | hcloses⟩ := loopStep_slots hstep
      · exact hkeeps.iterSnap.ge
      · have hiter := hcloses.iterSnap
        omega
    have hA' : Finset.range (s.stat.iterSnap + 1) ⊆ A :=
      (Finset.range_subset_range.mpr (by omega)).trans hA
    have hmem : s.stat.iterSnap ∈ A := hA' (Finset.self_mem_range_succ _)
    have hcount : s'.countMeasured = s.countMeasured + 1 ∧ s.IssuesMeasured r ∨
        s'.countMeasured = s.countMeasured ∧ ¬ s.IssuesMeasured r := by
      rcases loopStep_measured hstep with ⟨hmeasured, hcount, -⟩ | ⟨hnot, hcount, -⟩
      · exact .inl ⟨hcount, hmeasured⟩
      · exact .inr ⟨hcount, hnot⟩
    have htotal := h.total (by omega) A hA'
    rcases h.step_opsIn hstep hlt A with ⟨hmeasured, -, hops⟩ | ⟨hnot, hops⟩
    · rcases hcount with ⟨hcount, -⟩ | ⟨-, hnot⟩
      · omega
      · exact absurd hmeasured hnot
    · rcases hcount with ⟨-, hmeasured⟩ | ⟨hcount, -⟩
      · exact absurd ⟨hmeasured, hmem⟩ hnot
      · omega

theorem Noted.start {base : ℕ} (htim : tim ≤ base) (hinit : loopInit r tim base = .ok s) : Noted r base s := by
  obtain ⟨hstat, hissued, -, -⟩ := loopInit_eq_ok hinit
  have hcount : s.countMeasured = 0 := by
    rw [LoopState.countMeasured, hissued]
    rfl
  refine ⟨?_, fun i _ => by rw [hstat]; rfl, fun _ => hcount, fun _ A _ => ?_⟩
  · obtain ⟨hbegin, ⟨-, hru⟩ | ⟨-, htime, -⟩⟩ := loopInit_limits hinit
    · exact .inl hru
    · exact .inr ⟨htime, (hbegin htime).le.trans (seconds_mono htim)⟩
  · have hsum : ∑ i ∈ A, Stats.init.slotOps i = 0 := Finset.sum_eq_zero fun _ _ => rfl
    rw [hcount, hstat, Stats.opsIn, hsum, Nat.zero_add]
    exact ite_self _

/-! ### A whole run -/

/-- **The operations noted in some of the slots over a run**: they only grow, and not at all exactly if no operation is
measured while one of these slots is open. -/
theorem loopRun_opsIn (h : Noted r now s) (hclock : ClockFrom now ticks)
    (hrun : loopRun conf r cNurand idproc ticks s = .ok s') (hlt : s'.countMeasured < 2 ^ 64) (A : Finset ℕ) :
    (∃ now', Noted r now' s') ∧ s.countMeasured ≤ s'.countMeasured ∧ s.stat.opsIn A ≤ s'.stat.opsIn A ∧
      (s'.stat.opsIn A = s.stat.opsIn A ↔
        EveryRound conf r cNurand idproc ticks s fun u => u.IssuesMeasured r → u.stat.iterSnap ∉ A) := by
  induction ticks generalizing now s with
  | nil =>
    obtain rfl := foldlM_nil_eq_ok.mp hrun
    exact ⟨⟨now, h⟩, le_rfl, le_rfl, fun _ k hk => absurd hk (Nat.not_lt_zero k), fun _ => rfl⟩
  | cons t ticks ih =>
    obtain ⟨u, hstep, hrun⟩ := foldlM_cons_eq_ok.mp hrun
    obtain ⟨h1, h2, h3, h4, hrest⟩ := hclock
    have htim : now ≤ t.tim := by omega
    obtain ⟨hnoted, hcount, hle, hiff⟩ := ih (h.step htim hstep) hrest hrun
    have hcount' : s.countMeasured ≤ u.countMeasured := by
      rcases loopStep_measured hstep with ⟨-, hcount', -⟩ | ⟨-, hcount', -⟩ <;> omega
    refine ⟨hnoted, hcount'.trans hcount, ?_⟩
    rw [everyRound_cons hstep, ← hiff]
    rcases h.step_opsIn hstep (hcount.trans_lt hlt) A with ⟨hmeasured, hA, hops⟩ | ⟨hnot, hops⟩
    · refine ⟨by omega, fun heq => by omega, fun hall => absurd hA (hall.1 hmeasured)⟩
    · refine ⟨by omega, fun heq => ⟨fun hm hA => hnot ⟨hm, hA⟩, by omega⟩, fun hall => ?_⟩
      rw [hall.2, hops]

/-- Where everything is printed that should be: the slots printed have been recorded. -/
theorem printedSlots_recorded {base : ℕ} (hstart : 0 ≤ r.start) (htim : tim ≤ base) (hclock : ClockFrom base ticks)
    (hinit : loopInit r tim base = .ok s₀) (hrun : loopRun conf r cNurand idproc ticks s₀ = .ok s)
    (hlast : s.stat.lastSnapshot s.measured = .ok st) : ∀ i ∈ printedSlots r st, ∃ snap, st.snaps i = some snap := by
  intro i hi
  obtain ⟨hle, hlt⟩ := Finset.mem_Ico.mp hi
  rw [← Option.isSome_iff_exists, Option.isSome_iff_ne_none]
  intro hnone
  rcases (Noted.start htim hinit).timed with hzero | ⟨htime, -⟩
  · -- a test that ends by size has no ramp-up
    have hinv := foldlM_inv (P := fun u => u.ruBegin = 0 ∧ ∀ i < u.stat.iterSnap, u.stat.snaps i ≠ none)
      (fun u t u' _ hu hstep => by
        obtain ⟨hru, hall⟩ := hu
        refine ⟨(loopStep_begin hstep).1.trans hru, fun i hi hnone => ?_⟩
        obtain ⟨ops, hkeeps | hcloses⟩ := loopStep_slots hstep
        · rw [hkeeps.snaps] at hnone
          exact hall i (hkeeps.iterSnap ▸ hi) hnone
        · rw [hcloses.iterSnap] at hi
          rcases Nat.lt_succ_iff_lt_or_eq.mp hi with hlt | rfl
          · rw [hcloses.snaps_of_ne hlt.ne] at hnone
            exact hall i hlt hnone
          · have hm := hcloses.measured_of_none hnone
            rw [LoopState.measured, hru] at hm
            simp at hm)
      ⟨hzero, fun i hi => by rw [loopInit_iterSnap hinit] at hi; omega⟩ hrun
    rcases Stats.lastSnapshot_eq_ok hlast with ⟨rfl, -⟩ | ⟨hcloses, -⟩
    · exact hinv.2 i hlt hnone
    · rw [hcloses.iterSnap] at hlt
      rcases Nat.lt_succ_iff_lt_or_eq.mp hlt with hlt | rfl
      · rw [hcloses.snaps_of_ne hlt.ne] at hnone
        exact hinv.2 i hlt hnone
      · have hm := hcloses.measured_of_none hnone
        rw [LoopState.measured, hinv.1] at hm
        simp at hm
  · have hslots := loopRun_slots htime hstart (.start htime hstart htim hinit) hclock hrun
    have hbound := (hslots.unrecorded_last hstart (loopInit_iterSnap hinit) hrun hlast hlt hnone).1
    omega

/-- The operations noted in the slots that are not printed, and in those that are. -/
theorem Stats.opsIn_split {n m : ℕ} (st : Stats) (h : n ≤ m) :
    st.opsIn (Finset.range n) + st.opsIn (Finset.Ico n m) = st.opsIn (Finset.range m) := by
  have hsum := Finset.sum_range_add_sum_Ico st.slotOps h
  have hmem : st.iterSnap ∈ Finset.range m ↔ st.iterSnap ∈ Finset.range n ∨ st.iterSnap ∈ Finset.Ico n m := by
    simp only [Finset.mem_range, Finset.mem_Ico]
    omega
  have hdisjoint : st.iterSnap ∈ Finset.range n → st.iterSnap ∉ Finset.Ico n m := by
    simp only [Finset.mem_range, Finset.mem_Ico]
    omega
  unfold Stats.opsIn
  by_cases hn : st.iterSnap ∈ Finset.range n
  · rw [if_pos hn, if_neg (hdisjoint hn), if_pos (hmem.mpr (.inl hn))]
    omega
  · by_cases hm : st.iterSnap ∈ Finset.Ico n m
    · rw [if_neg hn, if_pos hm, if_pos (hmem.mpr (.inr hm))]
      omega
    · rw [if_neg hn, if_neg hm, if_neg (fun h => (hmem.mp h).elim hn hm)]
      omega

/-- Every operation measured is noted in a slot up to the open one. -/
theorem Noted.opsIn_add (h : Noted r now s) (hlt : s.countMeasured < 2 ^ 64) (n : ℕ) :
    s.stat.opsIn (Finset.range n) + s.stat.opsIn (Finset.Ico n (s.stat.iterSnap + 1)) = s.countMeasured := by
  rcases Nat.le_total n (s.stat.iterSnap + 1) with hle | hle
  · rw [s.stat.opsIn_split hle]
    exact h.total hlt _ Finset.Subset.rfl
  · have hempty : s.stat.opsIn (Finset.Ico n (s.stat.iterSnap + 1)) = 0 := by
      rw [Finset.Ico_eq_empty_of_le hle, Stats.opsIn, Finset.sum_empty, if_neg (Finset.notMem_empty _)]
    rw [hempty, Nat.add_zero]
    exact h.total hlt _ (Finset.range_subset_range.mpr hle)

theorem Stats.lastSnapshot_totOps {m : Bool} (h : st.lastSnapshot m = .ok st') : st'.totOps = st.totOps := by
  unfold Stats.lastSnapshot at h
  split at h
  · split at h
    · cases h
    · cases h
      rfl
  · cases h
    rfl

/-- What is printed is all that was measured, if nothing was noted in the slots before, and what was noted since the
last snapshot is in a slot that was closed. -/
theorem Noted.sum_printed_iff (h : Noted r now s) (hlt : s.countMeasured < 2 ^ 64)
    (hlast : s.stat.lastSnapshot s.measured = .ok st) (n : ℕ) :
    ∑ i ∈ Finset.Ico n st.iterSnap, st.slotOps i = s.countMeasured ↔
      s.stat.opsIn (Finset.range n) = 0 ∧ (s.stat.lastSnapTime < s.stat.t1snap ∨ s.stat.snapTotops = 0) := by
  have htotal := h.opsIn_add hlt n
  rcases Stats.lastSnapshot_eq_ok hlast with ⟨rfl, hlate⟩ | ⟨hcloses, hlater⟩
  · have hopen : s.stat.slotOps s.stat.iterSnap = 0 := by
      rw [Stats.slotOps, h.notYet _ le_rfl]
      rfl
    have hpending : s.stat.opsIn (Finset.Ico n (s.stat.iterSnap + 1)) =
        ∑ i ∈ Finset.Ico n s.stat.iterSnap, s.stat.slotOps i +
          if n ≤ s.stat.iterSnap then s.stat.snapTotops else 0 := by
      rw [Stats.opsIn]
      by_cases hn : n ≤ s.stat.iterSnap
      · rw [Finset.sum_Ico_succ_top hn, hopen, Nat.add_zero, if_pos hn,
          if_pos (Finset.mem_Ico.mpr ⟨hn, Nat.lt_succ_self _⟩)]
      · rw [Finset.Ico_eq_empty_of_le (not_le.mp hn), Finset.Ico_eq_empty_of_le (not_le.mp hn).le, if_neg hn,
          if_neg (Finset.notMem_empty _)]
    have hbefore : s.stat.iterSnap < n → s.stat.snapTotops ≤ s.stat.opsIn (Finset.range n) := by
      intro hn
      rw [Stats.opsIn, if_pos (Finset.mem_range.mpr hn)]
      exact Nat.le_add_left _ _
    have hnot : ¬ s.stat.lastSnapTime < s.stat.t1snap := not_lt.mpr hlate
    rw [or_iff_right hnot]
    split at hpending
    next hn => omega
    next hn =>
      have hle := hbefore (not_le.mp hn)
      omega
  · have hzero : s.measured = false → s.stat.snapTotops = 0 := by
      intro hm
      have hle := h.snapTotops_le hlt
      have hnone := h.rampUp hm
      omega
    have hprinted : ∑ i ∈ Finset.Ico n st.iterSnap, st.slotOps i =
        s.stat.opsIn (Finset.Ico n (s.stat.iterSnap + 1)) := by
      rw [hcloses.iterSnap, hcloses.sum_slotOps (h.notYet _ le_rfl) hzero]
      rfl
    rw [hprinted, or_iff_left_of_imp fun _ => hlater]
    omega

theorem loopRun_issued_subset (hrun : loopRun conf r cNurand idproc ticks s = .ok s') :
    ∀ op ∈ s.issued, op ∈ s'.issued := by
  refine foldlM_inv (P := fun u => ∀ op ∈ s.issued, op ∈ u.issued) (fun u t u' _ hu hstep op hop => ?_)
    (fun _ hop => hop) hrun
  rcases loopStep_eq_ok hstep with rfl | ⟨-, s₁, rfl, rfl | ⟨-, hissue⟩⟩
  · exact hu op hop
  · exact hu op hop
  · obtain ⟨off, rest, -, hissued, -⟩ := LoopState.issue_eq_ok hissue
    exact (hissued ▸ List.mem_append_left _ (hu op hop) : op ∈ s₁.issued)

/-- The first operation is issued while slot `0` is open. -/
theorem issued_eq_nil (hrun : loopRun conf r cNurand idproc ticks s = .ok s') (hzero : s.stat.iterSnap = 0)
    (hissued : s.issued = []) (hmeasured : ∀ op ∈ s'.issued, op.measured = true)
    (h : EveryRound conf r cNurand idproc ticks s fun u => u.IssuesMeasured r → 0 < u.stat.iterSnap) :
    s'.issued = [] := by
  induction ticks generalizing s with
  | nil => exact foldlM_nil_eq_ok.mp hrun ▸ hissued
  | cons t ticks ih =>
    obtain ⟨u, hstep, hrest⟩ := foldlM_cons_eq_ok.mp hrun
    obtain ⟨hs, hu⟩ := (everyRound_cons hstep).mp h
    rcases loopStep_eq_ok hstep with rfl | ⟨-, s₁, rfl, rfl | ⟨-, hissue⟩⟩
    · exact ih hrest hzero hissued hu
    · exact ih hrest hzero hissued hu
    · obtain ⟨off, rest, -, hissued₁, -⟩ := LoopState.issue_eq_ok hissue
      rw [hissued, List.nil_append] at hissued₁
      have hop := hmeasured _ (loopRun_issued_subset hrest _ (hissued₁ ▸ List.mem_singleton_self _ :
        ⟨off, s.timeElapsed, s.measured⟩ ∈ (s₁.advance r t).issued))
      have hone : (s₁.advance r t).countMeasured = 1 := by
        rw [LoopState.countMeasured, LoopState.advance, hissued₁, List.countP_singleton]
        exact if_pos hop
      have hnone : s.countMeasured = 0 := by
        rw [LoopState.countMeasured, hissued]
        rfl
      rcases loopStep_measured hstep with ⟨hm, -⟩ | ⟨-, hcount, -⟩
      · have hpos := hs hm
        omega
      · omega

/-- **When every measured operation is reported once.**  Take a run of fewer than `2 ^ 64` operations, with any
latencies and a clock that never goes back.  The slots that are printed have every operation that was measured
exactly if each of them was issued after `start + 1` slots had been closed, and the last slot was closed or empty.
Without a ramp-up, that is if there was no operation at all. -/
theorem reported_once_iff {base : ℕ} (hstart : 0 ≤ r.start) (htim : tim ≤ base) (hclock : ClockFrom base ticks)
    (hinit : loopInit r tim base = .ok s₀) (hrun : loopRun conf r cNurand idproc ticks s₀ = .ok s)
    (hlast : s.stat.lastSnapshot s.measured = .ok st) (hlen : s.issued.length < 2 ^ 64) :
    (ReportedOnce r st ↔
      (EveryRound conf r cNurand idproc ticks s₀ fun u => u.IssuesMeasured r → r.start < u.stat.iterSnap) ∧
        (s.stat.lastSnapTime < s.stat.t1snap ∨ s.stat.snapTotops = 0)) ∧
    (r.NoRampUp → (ReportedOnce r st ↔ s.issued = [])) := by
  have hlt : s.countMeasured < 2 ^ 64 := lt_of_le_of_lt List.countP_le_length hlen
  obtain ⟨⟨now, hnoted⟩, -, -, hearly⟩ :=
    loopRun_opsIn (.start htim hinit) hclock hrun hlt (Finset.range (r.start + 1).toNat)
  have hinit₀ : s₀.stat.opsIn (Finset.range (r.start + 1).toNat) = 0 := by
    have hsum : ∑ i ∈ Finset.range (r.start + 1).toNat, Stats.init.slotOps i = 0 := Finset.sum_eq_zero fun _ _ => rfl
    rw [(loopInit_eq_ok hinit).1, Stats.opsIn, hsum, Nat.zero_add]
    exact ite_self _
  have htotOps : st.totOps = s.countMeasured := by
    rw [Stats.lastSnapshot_totOps hlast, (loopRun_inv hinit hrun).totOps]
    exact u64_of_lt hlt
  have hreported : ReportedOnce r st ↔ ∑ i ∈ printedSlots r st, st.slotOps i = s.countMeasured := by
    rw [ReportedOnce, htotOps]
    exact and_iff_right (printedSlots_recorded hstart htim hclock hinit hrun hlast)
  have hiff : ReportedOnce r st ↔ s.stat.opsIn (Finset.range (r.start + 1).toNat) = 0 ∧
      (s.stat.lastSnapTime < s.stat.t1snap ∨ s.stat.snapTotops = 0) := by
    rw [hreported]
    exact hnoted.sum_printed_iff hlt hlast _
  have hrounds : ReportedOnce r st ↔
      (EveryRound conf r cNurand idproc ticks s₀ fun u => u.IssuesMeasured r → r.start < u.stat.iterSnap) ∧
        (s.stat.lastSnapTime < s.stat.t1snap ∨ s.stat.snapTotops = 0) := by
    rw [hiff, ← hinit₀, hearly]
    refine and_congr_left fun _ => everyRound_congr fun u => imp_congr_right fun _ => ?_
    rw [Finset.mem_range]
    omega
  refine ⟨hrounds, fun hr => ?_⟩
  have hmeasured := measured_of_noRampUp hr htim hclock hinit hrun
  constructor
  · intro h
    refine issued_eq_nil hrun (loopInit_iterSnap hinit) (loopInit_eq_ok hinit).2.1 hmeasured ?_
    intro k hk u hu hm
    have hlate := (hrounds.mp h).1 k hk u hu hm
    omega
  · intro hissued
    have hzero : s.countMeasured = 0 := by
      rw [LoopState.countMeasured, hissued]
      rfl
    have htotal := hnoted.opsIn_add hlt (r.start + 1).toNat
    have hpending := hnoted.snapTotops_le hlt
    exact hiff.mpr ⟨by omega, .inr (by omega)⟩

theorem everyRound_nil {P : LoopState → Prop} : EveryRound conf r cNurand idproc [] s P :=
  fun k hk => absurd hk (Nat.not_lt_zero k)

/-- A ramp-up of half a minute closes two slots, and the operations after it are reported. -/
theorem peakMinute_reported : ∃ s₀ s st, loopInit (peakMinute 1) 100000000 100000000 = .ok s₀ ∧
    loopRun inOrder (peakMinute 1) 0 0 [atSecond 101, atSecond 131, atSecond 140, atSecond 161] s₀ = .ok s ∧
    s.stat.lastSnapshot s.measured = .ok st ∧ st.totOps = 2 ∧ ReportedOnce (peakMinute 1) st := by
  have h : okWith (loopInit (peakMinute 1) 100000000 100000000) fun s₀ => s₀.measured = false ∧
      okWith (loopStep inOrder (peakMinute 1) 0 0 s₀ (atSecond 101)) fun s₁ => s₁.measured = false ∧
      okWith (loopStep inOrder (peakMinute 1) 0 0 s₁ (atSecond 131)) fun s₂ => s₂.stat.iterSnap = 2 ∧
      okWith (loopStep inOrder (peakMinute 1) 0 0 s₂ (atSecond 140)) fun s₃ => s₃.stat.iterSnap = 2 ∧
      okWith (loopStep inOrder (peakMinute 1) 0 0 s₃ (atSecond 161)) fun s =>
        s.stat.lastSnapTime < s.stat.t1snap ∧ s.issued.length = 4 ∧
          okWith (s.stat.lastSnapshot s.measured) fun st => st.totOps = 2 := by
    decide +kernel
  obtain ⟨s₀, hinit, h⟩ := exists_of_okWith h
  obtain ⟨hm₀, h⟩ := of_decide_eq_true h
  obtain ⟨s₁, h₁, h⟩ := exists_of_okWith h
  obtain ⟨hm₁, h⟩ := of_decide_eq_true h
  obtain ⟨s₂, h₂, h⟩ := exists_of_okWith h
  obtain ⟨hiter₂, h⟩ := of_decide_eq_true h
  obtain ⟨s₃, h₃, h⟩ := exists_of_okWith h
  obtain ⟨hiter₃, h⟩ := of_decide_eq_true h
  obtain ⟨s, h₄, h⟩ := exists_of_okWith h
  obtain ⟨hlater, hlen, h⟩ := of_decide_eq_true h
  obtain ⟨st, hlast, htotOps⟩ := exists_of_okWith h
  have hrun : loopRun inOrder (peakMinute 1) 0 0 [atSecond 101, atSecond 131, atSecond 140, atSecond 161] s₀ = .ok s :=
    foldlM_cons_eq_ok.mpr ⟨s₁, h₁, foldlM_cons_eq_ok.mpr ⟨s₂, h₂, foldlM_cons_eq_ok.mpr ⟨s₃, h₃,
      foldlM_cons_eq_ok.mpr ⟨s, h₄, rfl⟩⟩⟩⟩
  have hclock : ClockFrom 100000000 [atSecond 101, atSecond 131, atSecond 140, atSecond 161] := by
    simp [ClockFrom, atSecond]
  have hrounds : EveryRound inOrder (peakMinute 1) 0 0 [atSecond 101, atSecond 131, atSecond 140, atSecond 161] s₀
      fun u => u.IssuesMeasured (peakMinute 1) → (peakMinute 1).start < u.stat.iterSnap := by
    have hstart : (peakMinute 1).start = 1 := rfl
    rw [everyRound_cons h₁, everyRound_cons h₂, everyRound_cons h₃, everyRound_cons h₄, hstart]
    refine ⟨fun hm => ?_, fun hm => ?_, fun _ => ?_, fun _ => ?_, everyRound_nil⟩
    · exact absurd (hm₀.symm.trans hm.2.2) (by decide)
    · exact absurd (hm₁.symm.trans hm.2.2) (by decide)
    · omega
    · omega
  exact ⟨s₀, s, st, hinit, hrun, hlast, of_decide_eq_true htotOps,
    (reported_once_iff (by decide) le_rfl hclock hinit hrun hlast (by omega)).1.mpr ⟨hrounds, .inl hlater⟩⟩

/-- A run of one operation, which takes longer than the test: no slot is closed, and nothing is printed. -/
theorem oneOperation_unreported : ∃ s₀ s st, loopInit (peakMinute 0) 100000000 100000000 = .ok s₀ ∧
    loopRun inOrder (peakMinute 0) 0 0 [⟨[], 101000000, 170000000, 170000000, 170000000⟩] s₀ = .ok s ∧
    ClockFrom 100000000 [⟨[], 101000000, 170000000, 170000000, 170000000⟩] ∧ ¬ s.beginTime < s.endTime ∧
    s.stat.lastSnapshot s.measured = .ok st ∧ st.totOps = 1 ∧ printedSlots (peakMinute 0) st = ∅ ∧
    ¬ ReportedOnce (peakMinute 0) st := by
  have h : okWith (loopInit (peakMinute 0) 100000000 100000000) fun s₀ =>
      okWith (loopRun inOrder (peakMinute 0) 0 0 [⟨[], 101000000, 170000000, 170000000, 170000000⟩] s₀) fun s =>
        ¬ s.beginTime < s.endTime ∧ okWith (s.stat.lastSnapshot s.measured) fun st =>
          st.totOps = 1 ∧ printedSlots (peakMinute 0) st = ∅ := by
    decide +kernel
  obtain ⟨s₀, hinit, h⟩ := exists_of_okWith h
  obtain ⟨s, hrun, h⟩ := exists_of_okWith h
  obtain ⟨hend, h⟩ := of_decide_eq_true h
  obtain ⟨st, hlast, h⟩ := exists_of_okWith h
  obtain ⟨htotOps, hprinted⟩ := of_decide_eq_true h
  refine ⟨s₀, s, st, hinit, hrun, by simp [ClockFrom], hend, hlast, htotOps, hprinted, ?_⟩
  rintro ⟨-, hsum⟩
  rw [hprinted, Finset.sum_empty, htotOps] at hsum
  cases hsum

end Dedisbench
