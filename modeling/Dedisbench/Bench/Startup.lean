import Dedisbench.Bench.Distout

/-!
# The counters at the start

`main` calls `init`, which loads the generator and then sets the statistics to zero, and after it `loadmmap`, which
makes the statistics point into the shared memory.  So what `init` writes to is not there yet; and it writes from the
second counter on only.  `loadmmap` sets `zerodups` to zero and leaves the other counters as an earlier run left them
in the file.  `cleanStart_iff` says which starts are clean all the same.
-/

namespace Dedisbench

open ExceptRun

/-! ### The start of `main` -/

/-- `info->statistics[z] = 0`; a pointer that is not yet assigned points to nothing. -/
def clearStatistics (statistics : Option (List ℕ)) (z : ℕ) : Exec (Option (List ℕ)) :=
  match statistics with
  | none => .error .undefined
  | some st => if z < st.length then .ok (some (st.set z 0)) else .error .undefined

/-- One round of the loop of `init`; its counter is an `int`. -/
def initStep (conf : Conf) (statistics : Option (List ℕ)) (z : ℕ) : Exec (Option (List ℕ)) := do
  let statistics ← if conf.distout then clearStatistics statistics z else .ok statistics
  let _ ← cInt (z + 1)
  .ok statistics

/-- `init`, with what the pointer `info->statistics` points to before and after it. -/
def init (conf : Conf) (file : Option (List Char)) (ld : LoadDraws) (statistics : Option (List ℕ)) :
    Exec (Generator × DuplicatesInfo × Option (List ℕ)) := do
  match ← initializeGenerator conf.generator file ld with
  | (g, some info, 1) =>
    let statistics ← (List.range' 1 (info.duplicatedBlocks - 1)).foldlM (initStep conf) statistics
    .ok (g, info, statistics)
  | _ => .error .exit

/-- The start of `main`, over a file of shared memory as an earlier run left it: `info` begins with no statistics. -/
def startUp (conf : Conf) (file : Option (List Char)) (ld : LoadDraws) (old : ℕ → ℕ) (oldMap : ℕ → BlockInfo) :
    Exec (Generator × DuplicatesInfo × Option Shared) := do
  let (g, info, _) ← init conf file ld none
  if conf.distout ∨ 1 ≤ conf.integrity then .ok (g, info, some (loadmmap conf info old oldMap))
  else .ok (g, info, none)

/-- The benchmark starts, with every counter and `zerodups` at zero. -/
def CleanStart (conf : Conf) (file : Option (List Char)) (ld : LoadDraws) (old : ℕ → ℕ) (oldMap : ℕ → BlockInfo) :
    Prop :=
  ∃ g info sh, startUp conf file ld old oldMap = .ok (g, info, some sh) ∧
    (∀ i < info.duplicatedBlocks, sh.statistics[i]? = some 0) ∧ sh.statistics[info.duplicatedBlocks]? = some 0

/-! ### When it is clean -/

section Start

variable {conf : Conf} {info : DuplicatesInfo} {g₀ : Generator} {file : Option (List Char)} {ld : LoadDraws}
  {old : ℕ → ℕ} {oldMap : ℕ → BlockInfo}

/-- The first round of the loop of `init` writes to nothing. -/
theorem foldlM_initStep_none (hd : conf.distout = true) {n : ℕ} (hn : 0 < n) :
    (List.range' 1 n).foldlM (initStep conf) none = .error .undefined := by
  obtain ⟨m, rfl⟩ := Nat.exists_eq_succ_of_ne_zero hn.ne'
  rw [List.range'_succ, List.foldlM_cons, initStep, if_pos hd, clearStatistics, bind_error, bind_error]

theorem init_eq (hload : initializeGenerator conf.generator file ld = .ok (g₀, some info, 1))
    (statistics : Option (List ℕ)) : init conf file ld statistics = (do
      let statistics ← (List.range' 1 (info.duplicatedBlocks - 1)).foldlM (initStep conf) statistics
      .ok (g₀, info, statistics)) := by
  rw [init, hload]
  rfl

theorem startUp_eq (hload : initializeGenerator conf.generator file ld = .ok (g₀, some info, 1))
    (hd : conf.distout = true) : startUp conf file ld old oldMap =
      if info.duplicatedBlocks ≤ 1 then .ok (g₀, info, some (loadmmap conf info old oldMap))
      else .error .undefined := by
  rw [startUp, init_eq hload]
  by_cases hle : info.duplicatedBlocks ≤ 1
  · have hnone : info.duplicatedBlocks - 1 = 0 := by omega
    rw [if_pos hle, hnone, List.range'_zero, List.foldlM_nil]
    simp only [hd, true_or, if_true]
    rfl
  · rw [if_neg hle, foldlM_initStep_none hd (by omega), bind_error, bind_error]

theorem loadmmap_statistics {i : ℕ} (hi : i < info.duplicatedBlocks) :
    (loadmmap conf info old oldMap).statistics[i]? = some (old i) := by
  rw [loadmmap, List.getElem?_append_left (by simpa using hi), List.getElem?_map, List.getElem?_range hi, Option.map_some]

theorem loadmmap_zerodups : (loadmmap conf info old oldMap).statistics[info.duplicatedBlocks]? = some 0 := by
  rw [loadmmap, List.getElem?_append_right (by simp)]
  simp

/-- **Which starts are clean**: those with at most one block with copies, whose counter the file has at zero; for a
distribution with two or more of them `init` writes through a pointer that is not yet assigned.  Whatever an earlier
run left, the start is clean for a distribution that has no block with copies, and for no other. -/
theorem cleanStart_iff (hload : initializeGenerator conf.generator file ld = .ok (g₀, some info, 1))
    (hd : conf.distout = true) :
    (∀ old oldMap, CleanStart conf file ld old oldMap ↔
      info.duplicatedBlocks ≤ 1 ∧ ∀ i < info.duplicatedBlocks, old i = 0) ∧
    (∀ old oldMap, startUp conf file ld old oldMap = .error .undefined ↔ 2 ≤ info.duplicatedBlocks) ∧
    ((∀ old oldMap, CleanStart conf file ld old oldMap) ↔ info.duplicatedBlocks = 0) := by
  have hiff : ∀ old oldMap, CleanStart conf file ld old oldMap ↔
      info.duplicatedBlocks ≤ 1 ∧ ∀ i < info.duplicatedBlocks, old i = 0 := by
    intro old oldMap
    rw [CleanStart, startUp_eq hload hd]
    constructor
    · rintro ⟨g, info', sh, h, hzero, -⟩
      split at h
      next hle =>
        cases h
        refine ⟨hle, fun i hi => ?_⟩
        have hclear := hzero i hi
        rw [loadmmap_statistics hi, Option.some.injEq] at hclear
        exact hclear
      next => cases h
    · rintro ⟨hle, hold⟩
      refine ⟨g₀, info, _, if_pos hle, fun i hi => ?_, loadmmap_zerodups⟩
      rw [loadmmap_statistics hi, hold i hi]
  refine ⟨hiff, fun old oldMap => ?_, ?_⟩
  · rw [startUp_eq hload hd]
    split
    next hle => exact ⟨fun h => (nomatch h), fun h => by omega⟩
    next hlt => exact ⟨fun _ => by omega, fun _ => rfl⟩
  · constructor
    · intro h
      -- a file in which no counter is zero
      have hone := (hiff _ _).mp (h (fun _ => 1) fun _ => ⟨0, 0, 0, 0, 0⟩)
      by_contra hne
      have hdirty := hone.2 0 (Nat.pos_of_ne_zero hne)
      cases hdirty
    · intro h old oldMap
      exact (hiff old oldMap).mpr ⟨by omega, fun i hi => by omega⟩

end Start

/-- One block with a copy. -/
def copyDistribution : List Char :=
  "0 87.5 10 10 10 10 10 10 10 10 10 10\n1 12.5 10 10 10 10 10 10 10 10 10 10\n".toList

/-- If its counter is zero in the file, the start is clean. -/
theorem copyDistribution_clean : ∃ g₀ info,
    initializeGenerator loggedFiles.generator (some copyDistribution) plainDraws = .ok (g₀, some info, 1) ∧
      info.duplicatedBlocks = 1 ∧
      CleanStart loggedFiles (some copyDistribution) plainDraws (Function.update (fun _ => 7) 0 0)
        fun _ => ⟨0, 0, 0, 0, 0⟩ := by
  obtain ⟨g₀, info, h, hg⟩ := exists_of_loadsWith (x := initializeGenerator loggedFiles.generator
    (some copyDistribution) plainDraws) (T := fun _ info => info.duplicatedBlocks = 1) (by decide +kernel)
  have hdup : info.duplicatedBlocks = 1 := of_decide_eq_true hg
  refine ⟨g₀, info, h, hdup, ((cleanStart_iff h rfl).1 _ _).mpr ⟨hdup.le, fun i hi => ?_⟩⟩
  obtain rfl : i = 0 := by omega
  exact Function.update_self ..

/-- Four blocks with copies: `init` writes before there is anything to write to. -/
theorem plainDistribution_startUp :
    startUp loggedFiles (some plainDistribution) plainDraws (fun _ => 0) (fun _ => ⟨0, 0, 0, 0, 0⟩) = .error .undefined ∧
      ¬ CleanStart loggedFiles (some plainDistribution) plainDraws (fun _ => 0) fun _ => ⟨0, 0, 0, 0, 0⟩ := by
  obtain ⟨g₀, info, h, hg⟩ := exists_of_loadsWith (x := initializeGenerator loggedFiles.generator
    (some plainDistribution) plainDraws) (T := fun _ info => info.duplicatedBlocks = 4) (by decide +kernel)
  have hdup : info.duplicatedBlocks = 4 := of_decide_eq_true hg
  have hstart : startUp loggedFiles (some plainDistribution) plainDraws (fun _ => 0) (fun _ => ⟨0, 0, 0, 0, 0⟩) =
      .error .undefined := by
    rw [startUp_eq h rfl, if_neg (by omega)]
  refine ⟨hstart, ?_⟩
  rintro ⟨g, info', sh, hok, -⟩
  cases hstart.symm.trans hok

end Dedisbench
