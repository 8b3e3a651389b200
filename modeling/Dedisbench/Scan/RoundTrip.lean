import Dedisbench.Generator.Estimate
import Dedisbench.Scan.Cumulative

/-!
# The distribution that is written and the one that is read

The lines `print_elements_print` writes have two fields, and `Generator::initialize` reads twelve.
The ten shares that are missing are not noticed while the lines are read; but the estimate of
`get_media_inter` looks up the share of a random id, and every id belongs to a line
(`getMediaInter_ok_iff`).
-/

namespace Dedisbench

open ExceptRun Tally Text

/-! ### What is read of the text -/

theorem getlines_distLine (data : UInt64 × UInt64) :
    getlines ' ' (distLine data) = [decimal data.1.toNat, decimal data.2.toNat] := by
  have hspace : ∀ n, ' ' ∉ decimal n := fun n => notMem_decimal rfl
  rw [distLine, getlines_append (hspace _), getlines_last (hspace _) (decimal_ne_nil _)]

theorem getlines_distText (recs : List (UInt64 × UInt64)) : getlines '\n' (distText recs) = recs.map distLine := by
  apply getlines_flatMap
  intro data _ hmem
  rw [distLine, List.mem_append, List.mem_cons] at hmem
  rcases hmem with hmem | hmem | hmem
  · exact notMem_decimal rfl hmem
  · exact absurd hmem (by decide)
  · exact notMem_decimal rfl hmem

/-- The lines read have no share of any compression class. -/
theorem readLines_distText {n : ℕ} {recs : List (UInt64 × UInt64)} {s : ParseState}
    (h : readLines n (distText recs) = .ok s) : ∀ l ∈ s.linhas, l.compression = [] := by
  rw [readLines, getlines_distText] at h
  refine foldlM_inv (P := fun s => ∀ l ∈ s.linhas, l.compression = []) ?_ (by simp) h
  intro s line s' hline hs hstep
  obtain ⟨data, -, rfl⟩ := List.mem_map.mp hline
  rw [readLine, getlines_distLine] at hstep
  simp only [bind_eq_ok] at hstep
  obtain ⟨copies, -, w, -, nrBlocks, -, compression, hcomp, hstep⟩ := hstep
  cases hcomp
  rw [Except.ok.injEq] at hstep
  subst hstep
  intro l hl
  rcases List.mem_append.mp hl with hl | hl
  · exact hs l hl
  · rw [List.mem_singleton.mp hl]
    rfl

/-! ### The estimate -/

/-- The search for the compression of an id fails at the first line that has it. -/
theorem not_answersId {F : Type} [Arith F] {ls : List (Linha F)} {id : ℤ} (hnil : ∀ l ∈ ls, l.compression = []) :
    ¬ AnswersId ls id := by
  rintro ⟨l, hl, h10 | ⟨i, hi, -⟩⟩
  · rw [hnil l (List.mem_of_find?_eq_some hl)] at h10
    exact absurd h10 (by simp)
  · rw [hnil l (List.mem_of_find?_eq_some hl)] at hi
    exact absurd hi (Nat.not_lt_zero i)

/-- Without shares there is no estimate. -/
theorem getMediaInter_of_nil {g : Generator} (hlines : LinesOk g.linhas)
    (htotal : g.totalUniqueBlocks = u32 g.blockCounts.sum) (hnil : ∀ l ∈ g.linhas, l.compression = []) {percentage : ℕ}
    (hpct : 1 ≤ percentage ∧ percentage ≤ 99) (raw : ℕ → ℕ) (x : ℤ × ℤ) : getMediaInter g percentage raw ≠ .ok x := by
  intro h
  obtain ⟨h200, -, hanswers⟩ := (getMediaInter_ok_iff hlines htotal hpct raw).1.mp ⟨x, h⟩
  exact not_answersId hnil (hanswers 0 (by omega))

/-- A text of lines without shares is not accepted. -/
theorem initializeGenerator_distText_ne {percentage : ℕ} (hpct : 1 ≤ percentage ∧ percentage ≤ 99)
    (blockSize blocosAGerar compression : ℕ) (recs : List (UInt64 × UInt64)) (d : LoadDraws) (g : Generator)
    (info : Option DuplicatesInfo) :
    initializeGenerator (.mk' blockSize blocosAGerar percentage compression) (some (distText recs)) d ≠
      .ok (g, info, 1) := by
  intro h
  obtain ⟨text, s, interval, -, -, htext, -, hs, hinterval, -⟩ := initialize_eq_ok h
  cases htext
  have hparse := readLines_parseOk hs
  exact getMediaInter_of_nil hparse.lines hparse.total (readLines_distText hs) hpct d.sample interval hinterval

/-! ### The round trip -/

/-- The distribution file of a database: `gen_output` into an empty print database and the lines that
`print_elements_print` writes of it, each with a cursor of its own. -/
def DistributionFile (db : DuplicateDb) (text : List Char) : Prop :=
  ∃ recs dist, Visits db recs ∧ Visits (genOutput recs ∅) dist ∧ text = distText dist

theorem printElementsPrint_text {recs : List (UInt64 × UInt64)} {fpcumul out : Option (List CumulLine)}
    {text : List Char} (h : printElementsPrint recs fpcumul = .ok (text, out)) : text = distText recs := by
  rw [printElementsPrint, bind_eq_ok] at h
  obtain ⟨o, -, h⟩ := h
  rw [Except.ok.injEq, Prod.mk.injEq] at h
  exact h.1.symm

/-- **No distribution that is written is accepted**, for no database, no order of the cursors and no configuration:
`initialize` does not return 1 for it. -/
theorem generated_distribution_rejected {db : DuplicateDb} {text : List Char} (h : DistributionFile db text)
    {percentage : ℕ} (hpct : 1 ≤ percentage ∧ percentage ≤ 99) (blockSize totblocks compression : ℕ) (d : LoadDraws) :
    ¬ ∃ g info, initializeGenerator (.mk' blockSize totblocks percentage compression) (some text) d =
      .ok (g, info, 1) := by
  obtain ⟨recs, dist, -, -, rfl⟩ := h
  rintro ⟨g, info, hrun⟩
  revert hrun
  exact initializeGenerator_distText_ne hpct blockSize totblocks compression dist d g info

/-- A database of a digest seen once and one seen three times. -/
def twoDigests : DuplicateDb := ((∅ : DuplicateDb).insert [97] 1).insert [98] 3

/-- Its distribution. -/
def twoCounts : List Char := ['0', ' ', '1', '\n', '2', ' ', '1', '\n']

theorem twoDigests_file : DistributionFile twoDigests twoCounts :=
  ⟨[([97], 1), ([98], 3)], [(0, 1), (2, 1)], visits_of_entries (by decide), visits_of_entries (by decide), by decide⟩

theorem twoDigests_rejected : ¬ ∃ g info,
    initializeGenerator (.mk' 4096 65536 2 25) (some twoCounts) plainDraws = .ok (g, info, 1) :=
  generated_distribution_rejected twoDigests_file (by decide) 4096 65536 25 plainDraws

/-- A database of one digest seen once. -/
def oneDigest : DuplicateDb := (∅ : DuplicateDb).insert [97] 1

theorem oneDigest_file : DistributionFile oneDigest ['0', ' ', '1', '\n'] :=
  ⟨[([97], 1)], [(0, 1)], visits_of_entries (by decide), visits_of_entries (by decide), by decide⟩

/-- Loading the distribution of one digest throws. -/
theorem oneDigest_throws : DistributionFile oneDigest ['0', ' ', '1', '\n'] ∧
    initializeGenerator (.mk' 4096 65536 2 25) (some ['0', ' ', '1', '\n']) plainDraws = .error .exception :=
  ⟨oneDigest_file, eq_error_of_failsWith (by decide +kernel)⟩

end Dedisbench
