import Dedisbench.Bench.Offsets
import Dedisbench.Bench.Run

/-!
# The rows of the content tracker

`loadmmap` lays out the statistics, `zerodups` and one row of `totblocks` entries for every file in one
mapped region.  The loops over a file go on until a byte counter reaches `filesize`, so they use one entry
more than a row has if `block_size` does not divide `filesize`, and that entry is the first of the next row.
Nothing holds the counter of a block below the rows either, as its index comes from the ids.  Otherwise every
access stays in its row (`tracker_separated_iff`).
-/

namespace Dedisbench

open ExceptRun

variable {conf : Conf} {info : DuplicatesInfo} {i j k row p : ℕ} {s s' : Sys} {sh sh' : Shared} {e b : BlockInfo}
  {g₀ : Generator}

/-! ### The accesses -/

/-- The reading processes: all of them, or the second half of a mixed load. -/
def Conf.readers (conf : Conf) : ℕ := if conf.mixedIO then conf.nprocs - conf.nprocs / 2 else conf.nprocs

/-- The accesses to `content_tracker[row][k]` that are made for process `i`: by `real_populate`, by the two
branches of `process_run`, and by `file_integrity`. -/
inductive TrackerAccess (conf : Conf) : ℕ → ℕ → ℕ → Prop
  | populate {i k : ℕ} (hint : conf.integrity ≠ 0) (hi : i ∈ conf.populated) (hk : k < conf.rounds) :
    TrackerAccess conf i (conf.pos i) k
  | write {i totOps c off : ℕ} {raws rest : List ℕ} (hint : conf.integrity ≠ 0) (hi : i < conf.writers)
    (hoff : getIoposition conf totOps c i raws = .ok (off, rest)) :
    TrackerAccess conf i (conf.pos i) (off / conf.blockSize)
  | read {i totOps c off : ℕ} {raws rest : List ℕ} (hint : 2 ≤ conf.integrity) (hi : i < conf.readers)
    (hoff : getIoposition conf totOps c i raws = .ok (off, rest)) :
    TrackerAccess conf i (conf.pos i) (off / conf.blockSize)
  | check {i k : ℕ} (hint : conf.integrity = 1 ∨ conf.integrity = 3) (hi : i ∈ conf.populated)
    (hk : k < conf.rounds) : TrackerAccess conf i i k

/-- `sizeof(struct block_info)` -/
def sizeofBlockInfo : ℕ := 32

/-- `sharedmem_size` of `loadmmap` -/
def Conf.sharedmemSize (conf : Conf) (info : DuplicatesInfo) : ℕ :=
  u64 (8 * (info.duplicatedBlocks * 3 + 1) + sizeofBlockInfo * (conf.totblocks * conf.trackerRows))

/-- Where entry `k` of the content map ends in the mapped region. -/
def entryEnd (info : DuplicatesInfo) (k : ℕ) : ℕ := 8 * (info.duplicatedBlocks + 1) + sizeofBlockInfo * (k + 1)

/-- A block that a generator emits which was loaded as `g₀`, for any process. -/
def Emitted (g₀ : Generator) (b : BlockInfo) : Prop :=
  ∃ g g' idproc d r, Generator.Reach g₀ g ∧ getWritecontent g idproc d = .ok (g', r, b)

/-- The counters that are incremented for process `i`, by their place from the start of the mapped region on: those of the
blocks with copies, by `real_populate` and by `process_run`, and `zerodups`.  A place before the region is left out. -/
inductive CounterAccess (conf : Conf) (info : DuplicatesInfo) (g₀ : Generator) : ℕ → ℕ → Prop
  | populate {i : ℕ} {b : BlockInfo} (hd : conf.distout = true) (hi : i ∈ conf.populated) (hb : Emitted g₀ b)
    (hflag : b.flagUniqueBlock = 0) : CounterAccess conf info g₀ i (indexId info b)
  | write {i : ℕ} {b : BlockInfo} (hd : conf.distout = true) (hi : i < conf.writers) (hb : Emitted g₀ b)
    (hflag : b.flagUniqueBlock = 0) (hpos : 0 ≤ statisticsIndex info b) :
    CounterAccess conf info g₀ i (statisticsIndex info b).toNat
  | zerodups {i : ℕ} (hd : conf.distout = true) (hi : i < conf.writers) :
    CounterAccess conf info g₀ i info.duplicatedBlocks

/-- Counter `j` would lie in the entries from `k` to `n` of the content map, of four words each. -/
def InEntries (info : DuplicatesInfo) (k n j : ℕ) : Prop :=
  info.duplicatedBlocks + 1 + 4 * k ≤ j ∧ j < info.duplicatedBlocks + 1 + 4 * n

/-- Every access is to an entry of the row of its process, within the mapped region; an update of the
entry leaves the statistics and the other rows as they are, and so does a counter the rows of the others. -/
structure Separated (conf : Conf) (info : DuplicatesInfo) (g₀ : Generator) : Prop where
  index : ∀ {i row k}, TrackerAccess conf i row k → k < conf.totblocks
  row : ∀ {i row k}, TrackerAccess conf i row k → row = conf.pos i ∧ row < conf.trackerRows
  mapped : ∀ {i row k}, TrackerAccess conf i row k →
    entryEnd info (row * conf.totblocks + k) ≤ conf.sharedmemSize info
  frame : ∀ {i row k}, TrackerAccess conf i row k → ∀ {sh sh' : Shared} {e : BlockInfo},
    sh.track conf row k e = .ok sh' → sh'.statistics = sh.statistics ∧
      ∀ row' ≠ row, ∀ k' < conf.totblocks, sh'.contentTracker conf row' k' = sh.contentTracker conf row' k'
  counters : ∀ {i j}, CounterAccess conf info g₀ i j → ∀ row < conf.trackerRows, row ≠ conf.pos i →
    ¬ InEntries info (row * conf.totblocks) ((row + 1) * conf.totblocks) j

/-! ### What the code accesses -/

theorem Shared.track_eq_ok (h : sh.track conf row k e = .ok sh') : sh'.statistics = sh.statistics ∧
    ∀ j, sh'.contentMap[j]? ≠ sh.contentMap[j]? → conf.integrity ≠ 0 ∧ j = row * conf.totblocks + k := by
  unfold Shared.track at h
  split at h
  · cases h
    exact ⟨rfl, fun j hj => absurd rfl hj⟩
  next hint =>
    split at h
    · cases h
      refine ⟨rfl, fun j hj => ⟨hint, ?_⟩⟩
      by_contra hne
      exact hj (List.getElem?_set_ne (Ne.symm hne))
    · cases h

/-- The counter that is changed is the one that is counted. -/
theorem Shared.count_index {x : Shared × ℕ} (h : sh.count i = .ok x) (hne : x.1.statistics[j]? ≠ sh.statistics[j]?) :
    j = i := by
  unfold Shared.count at h
  split at h
  · cases h
    by_contra hji
    exact hne (List.getElem?_set_ne (Ne.symm hji))
  · cases h

/-- The entries that `real_populate` changes. -/
theorem realPopulate_access {draws : ℕ → Generator.Draw} (hi : i ∈ conf.populated)
    (h : realPopulate conf info i draws s = .ok s') : ∀ j, s'.shared.contentMap[j]? ≠ s.shared.contentMap[j]? →
      ∃ k, TrackerAccess conf i (conf.pos i) k ∧ j = conf.pos i * conf.totblocks + k := by
  intro j
  refine foldlM_inv (P := fun t => t.shared.contentMap[j]? ≠ s.shared.contentMap[j]? →
    ∃ k, TrackerAccess conf i (conf.pos i) k ∧ j = conf.pos i * conf.totblocks + k) ?_ (fun hne => absurd rfl hne) h
  intro t k t' hk ht hstep hne
  unfold populateBlock at hstep
  simp only [bind_eq_ok] at hstep
  obtain ⟨⟨gen, buf, e⟩, -, shared, hshared, content, -, hstore⟩ := hstep
  rw [Sys.store, bind_eq_ok] at hstore
  obtain ⟨tracked, htrack, hstore⟩ := hstore
  cases hstore
  rw [Nat.mul_div_cancel _ conf.blockSize_pos] at htrack
  by_cases hsame : tracked.contentMap[j]? = shared.contentMap[j]?
  · exact ht (by rwa [hsame, populateCount_contentMap hshared] at hne)
  · obtain ⟨hint, hj⟩ := (Shared.track_eq_ok htrack).2 j hsame
    exact ⟨k, .populate hint hi (List.mem_range.mp hk), hj⟩

/-- The entry that a write changes. -/
theorem processWrite_access {w : WriteStep} (hw : w.idproc < conf.writers)
    (h : processWrite conf info s w = .ok s') : ∀ j, s'.shared.contentMap[j]? ≠ s.shared.contentMap[j]? →
      ∃ k, TrackerAccess conf w.idproc (conf.pos w.idproc) k ∧ j = conf.pos w.idproc * conf.totblocks + k := by
  intro j hne
  obtain ⟨gen, buf, e, off, content, s₁, s₂, q, -, ⟨o, c, rest, hoff⟩, -, -, hmap, -, -, hstore, -, rfl⟩ :=
    processWrite_eq_ok h
  rw [Sys.store, bind_eq_ok] at hstore
  obtain ⟨tracked, htrack, hstore⟩ := hstore
  cases hstore
  rw [← hmap] at hne
  obtain ⟨hint, hj⟩ := (Shared.track_eq_ok htrack).2 j hne
  exact ⟨_, .write hint hw hoff, hj⟩

/-- The entries that `file_integrity` reads: with the same ones it does the same. -/
theorem fileIntegrity_access {draws : ℕ → CheckDraw} {fresh : ByteMem.Mem} {f : File} {g : Generator}
    (hint : conf.integrity = 1 ∨ conf.integrity = 3) (hi : i ∈ conf.populated)
    (h : ∀ k, TrackerAccess conf i i k → sh.contentTracker conf i k = sh'.contentTracker conf i k) :
    fileIntegrity conf info sh f i draws fresh g = fileIntegrity conf info sh' f i draws fresh g := by
  refine foldlM_congr (fun c k hk => ?_) _
  unfold checkBlock
  rw [h k (.check hint hi (List.mem_range.mp hk))]

/-- The counter that `real_populate` changes. -/
theorem populateCount_access (hi : i ∈ conf.populated) (hb : Emitted g₀ b) (h : populateCount conf info sh b = .ok sh') :
    ∀ j, sh'.statistics[j]? ≠ sh.statistics[j]? → CounterAccess conf info g₀ i j := by
  intro j hne
  unfold populateCount at h
  split at h
  next hcond =>
    obtain ⟨hd, hflag⟩ : conf.distout = true ∧ b.flagUniqueBlock = 0 := by simpa using hcond
    obtain ⟨⟨sh₁, n⟩, hcount, h⟩ := bind_eq_ok.mp h
    cases h
    obtain rfl := Shared.count_index hcount hne
    exact .populate hd hi hb hflag
  next =>
    cases h
    exact absurd rfl hne

/-- The counters that a write changes. -/
theorem processCount_access {q q' : Proc} (hi : i < conf.writers) (hb : Emitted g₀ b)
    (h : processCount conf info q sh b = .ok (q', sh')) :
    ∀ j, sh'.statistics[j]? ≠ sh.statistics[j]? → CounterAccess conf info g₀ i j := by
  intro j hne
  unfold processCount at h
  split at h
  · cases h
    exact absurd rfl hne
  next hd =>
    have hd : conf.distout = true := by simpa using hd
    split at h
    next hflag =>
      split at h
      · cases h
      next hpos =>
        obtain ⟨⟨sh₁, n⟩, hcount, h⟩ := bind_eq_ok.mp h
        have hsh : sh' = sh₁ := by
          simp only at h
          split at h <;>
          · cases h
            rfl
        obtain rfl := Shared.count_index hcount (hsh ▸ hne)
        exact .write hd hi hb hflag (not_lt.mp hpos)
    next =>
      obtain ⟨⟨sh₁, n⟩, hcount, h⟩ := bind_eq_ok.mp h
      cases h
      obtain rfl := Shared.count_index hcount hne
      exact .zerodups hd hi

/-! ### When the rows are kept apart -/

/-- The content map ends within the mapped region: `sharedmem_size` has not wrapped. -/
def Conf.Fits (conf : Conf) (info : DuplicatesInfo) : Prop :=
  8 * (info.duplicatedBlocks + 1) + sizeofBlockInfo * (conf.trackerRows * conf.totblocks) ≤ conf.sharedmemSize info

/-- Every reading process has a row: the processes of a mixed load come in pairs. -/
def Conf.Paired (conf : Conf) : Prop :=
  conf.mixedIO = true → conf.rawdevice = false → 2 ≤ conf.integrity → conf.Enough → conf.nprocs % 2 = 0

theorem Conf.mem_populated : i ∈ conf.populated ↔ i < conf.trackerRows := List.mem_range

/-- No counter of a block with copies lies in the rows, where there are several of them. -/
def CountersApart (conf : Conf) (info : DuplicatesInfo) (g₀ : Generator) : Prop :=
  conf.distout = true → 2 ≤ conf.trackerRows → ∀ b, Emitted g₀ b → b.flagUniqueBlock = 0 →
    ¬ InEntries info 0 (conf.trackerRows * conf.totblocks) (indexId info b) ∧
      (0 ≤ statisticsIndex info b →
        ¬ InEntries info 0 (conf.trackerRows * conf.totblocks) (statisticsIndex info b).toNat)

/-- What lies in the rows lies in one of them. -/
theorem InEntries.exists_row {n rows : ℕ} (h : InEntries info 0 (rows * n) j) :
    ∃ row < rows, InEntries info (row * n) ((row + 1) * n) j := by
  obtain ⟨hlow, hhigh⟩ := h
  induction rows with
  | zero => omega
  | succ rows ih =>
    by_cases hj : j < info.duplicatedBlocks + 1 + 4 * (rows * n)
    · obtain ⟨row, hrow, hin⟩ := ih hj
      exact ⟨row, hrow.trans rows.lt_succ_self, hin⟩
    · exact ⟨rows, rows.lt_succ_self, not_lt.mp hj, hhigh⟩

theorem InEntries.of_row {n rows : ℕ} (hrow : row < rows) (h : InEntries info (row * n) ((row + 1) * n) j) :
    InEntries info 0 (rows * n) j := by
  have hle : (row + 1) * n ≤ rows * n := Nat.mul_le_mul_right _ hrow
  unfold InEntries at *
  omega

/-- **Counters in the rows**: with several rows each process has the row of another one. -/
theorem countersApart_iff : CountersApart conf info g₀ ↔ ∀ {i j}, CounterAccess conf info g₀ i j →
    ∀ row < conf.trackerRows, row ≠ conf.pos i →
      ¬ InEntries info (row * conf.totblocks) ((row + 1) * conf.totblocks) j := by
  constructor
  · intro h i j hj row hrow hne hin
    have hin := hin.of_row hrow
    have htwo : conf.pos i < conf.trackerRows → 2 ≤ conf.trackerRows := by omega
    cases hj with
    | populate hd hi hb hflag =>
      rw [Conf.mem_populated] at hi
      exact (h hd (htwo (by rwa [Conf.pos_of_lt hi])) _ hb hflag).1 hin
    | write hd hi hb hflag hpos => exact (h hd (htwo (Conf.pos_lt hi)) _ hb hflag).2 hpos hin
    | zerodups hd hi =>
      have hlow := hin.1
      omega
  · intro h hd htwo b hb hflag
    -- a process other than that of the row
    have hother : ∀ row, ∃ i < conf.trackerRows, row ≠ conf.pos i := by
      intro row
      by_cases hrow : row = 0
      · exact ⟨1, by omega, by rw [Conf.pos_of_lt (by omega), hrow]; decide⟩
      · exact ⟨0, by omega, by rwa [Conf.pos_of_lt (by omega)]⟩
    have hwriters : conf.trackerRows ≤ conf.writers := by
      unfold Conf.trackerRows at htwo ⊢
      split at htwo
      · omega
      · rw [if_neg (by assumption)]
    refine ⟨fun hin => ?_, fun hpos hin => ?_⟩
    · obtain ⟨row, hrow, hin⟩ := hin.exists_row
      obtain ⟨i, hi, hne⟩ := hother row
      exact h (.populate hd (Conf.mem_populated.mpr hi) hb hflag) row hrow hne hin
    · obtain ⟨row, hrow, hin⟩ := hin.exists_row
      obtain ⟨i, hi, hne⟩ := hother row
      exact h (.write hd (lt_of_lt_of_le hi hwriters) hb hflag hpos) row hrow hne hin

/-- No more rounds than blocks: the blocks fill the file. -/
theorem Conf.dvd_of_rounds_le (h : conf.rounds ≤ conf.totblocks) : conf.blockSize ∣ conf.filesize := by
  have hbs := conf.blockSize_pos
  have hmod := Nat.div_add_mod conf.filesize conf.blockSize
  have hlt := Nat.mod_lt conf.filesize hbs
  unfold Conf.rounds Conf.totblocks at h
  apply Nat.dvd_of_mod_eq_zero
  by_contra hne
  -- a rest makes one more round
  have hround : conf.filesize / conf.blockSize + 1 ≤ (conf.filesize + conf.blockSize - 1) / conf.blockSize := by
    rw [Nat.le_div_iff_mul_le hbs, Nat.add_mul, Nat.one_mul, Nat.mul_comm]
    omega
  omega

/-- The row of a reading process. -/
theorem Conf.pos_lt_of_readers (hpaired : conf.Paired) (hint : 2 ≤ conf.integrity) (henough : conf.Enough)
    (hi : i < conf.readers) : conf.pos i < conf.trackerRows := by
  unfold Conf.pos Conf.trackerRows
  by_cases hraw : conf.rawdevice = true
  · rw [if_pos hraw, if_pos hraw]
    exact Nat.one_pos
  · rw [if_neg hraw, if_neg hraw]
    unfold Conf.readers at hi
    unfold Conf.writers
    split
    next hmixed =>
      have heven := hpaired hmixed (Bool.eq_false_iff.mpr hraw) hint henough
      rw [if_pos hmixed] at hi
      omega
    next hmixed => rwa [if_neg hmixed] at hi

theorem Conf.readers_le (conf : Conf) : conf.readers ≤ conf.nprocs := by
  unfold Conf.readers
  split
  · exact Nat.sub_le _ _
  · exact le_rfl

/-- An entry of a row lies within the content map. -/
theorem entry_lt {n rows : ℕ} (hrow : row < rows) (hk : k < n) : row * n + k + 1 ≤ rows * n := by
  calc row * n + k + 1 ≤ row * n + n := by omega
    _ = (row + 1) * n := by ring
    _ ≤ rows * n := Nat.mul_le_mul_right _ hrow

/-- The process, the row and the index of an access, where blocks fill the file and every process has a row. -/
theorem TrackerAccess.bounds (hdvd : conf.trackerRows = 0 ∨ conf.blockSize ∣ conf.filesize) (hpaired : conf.Paired)
    (h : TrackerAccess conf i row k) : row = conf.pos i ∧ row < conf.trackerRows ∧ k < conf.totblocks := by
  have hrounds : i ∈ conf.populated → conf.rounds = conf.totblocks := by
    intro hi
    rcases hdvd with h0 | hdvd
    · rw [Conf.mem_populated, h0] at hi
      cases hi
    · exact conf.rounds_eq hdvd
  cases h with
  | populate hint hi hk =>
    refine ⟨rfl, ?_, hrounds hi ▸ hk⟩
    rw [Conf.mem_populated] at hi
    rwa [Conf.pos_of_lt hi]
  | write hint hi hoff =>
    obtain ⟨k, hk, rfl⟩ := getIoposition_block (hi.trans_le conf.writers_le) hoff
    rw [Nat.mul_div_cancel _ conf.blockSize_pos]
    exact ⟨rfl, Conf.pos_lt hi, hk⟩
  | read hint hi hoff =>
    have hid := hi.trans_le conf.readers_le
    have henough := Conf.enough_of_getIoposition hid hoff
    obtain ⟨k, hk, rfl⟩ := getIoposition_block hid hoff
    rw [Nat.mul_div_cancel _ conf.blockSize_pos]
    exact ⟨rfl, Conf.pos_lt_of_readers hpaired hint henough hi, hk⟩
  | check hint hi hk =>
    have hk := hrounds hi ▸ hk
    rw [Conf.mem_populated] at hi
    exact ⟨(Conf.pos_of_lt hi).symm, hi, hk⟩

theorem Shared.track_self (hint : conf.integrity ≠ 0) (h : sh.track conf row k e = .ok sh') :
    sh'.contentTracker conf row k = .ok e := by
  unfold Shared.track at h
  rw [if_neg hint] at h
  split at h
  next hlt =>
    cases h
    exact contentTracker_eq_ok.mpr (List.getElem?_set_self hlt)
  next => cases h

/-- An update within a row leaves the other entries as they are. -/
theorem Shared.track_other {row' k' : ℕ} (hk : k < conf.totblocks) (hk' : k' < conf.totblocks)
    (hne : ¬ (row' = row ∧ k' = k)) (h : sh.track conf row k e = .ok sh') :
    sh'.contentTracker conf row' k' = sh.contentTracker conf row' k' := by
  have hsame : sh'.contentMap[row' * conf.totblocks + k']? = sh.contentMap[row' * conf.totblocks + k']? := by
    by_contra hdiff
    obtain ⟨-, hj⟩ := (Shared.track_eq_ok h).2 _ hdiff
    exact hne (row_injective hk' hk hj)
  unfold Shared.contentTracker
  rw [hsame]

/-- Rows that are kept apart are whole files, and the last of their entries lies in the map. -/
theorem Separated.fits (hint : conf.integrity ≠ 0) (h : Separated conf info g₀) :
    conf.trackerRows = 0 ∨ conf.blockSize ∣ conf.filesize ∧ (conf.totblocks = 0 ∨ conf.Fits info) := by
  rcases Nat.eq_zero_or_pos conf.trackerRows with h0 | hrows
  · exact .inl h0
  right
  have hlast : conf.trackerRows - 1 ∈ conf.populated := Conf.mem_populated.mpr (by omega)
  have hdvd : conf.blockSize ∣ conf.filesize := by
    apply Conf.dvd_of_rounds_le
    by_contra hlt
    exact absurd (h.index (.populate hint hlast (not_le.mp hlt))) (lt_irrefl _)
  refine ⟨hdvd, ?_⟩
  rcases Nat.eq_zero_or_pos conf.totblocks with h0 | htot
  · exact .inl h0
  -- the last entry of the last row
  right
  have hk : conf.totblocks - 1 < conf.rounds := by
    rw [conf.rounds_eq hdvd]
    omega
  have hend := h.mapped (.populate hint hlast hk)
  rw [Conf.pos_of_lt (Conf.mem_populated.mp hlast)] at hend
  have hindex : (conf.trackerRows - 1) * conf.totblocks + (conf.totblocks - 1) + 1
      = conf.trackerRows * conf.totblocks := by
    rw [Nat.add_assoc, Nat.sub_add_cancel htot]
    calc (conf.trackerRows - 1) * conf.totblocks + conf.totblocks
        = (conf.trackerRows - 1 + 1) * conf.totblocks := by ring
      _ = conf.trackerRows * conf.totblocks := by rw [Nat.sub_add_cancel hrows]
  rw [entryEnd, hindex] at hend
  exact hend

/-- Where the rows are kept apart, the last reader has one. -/
theorem Separated.paired (hbs : 4096 ≤ conf.blockSize) (h : Separated conf info g₀) : conf.Paired := by
  intro hmixed hraw hint henough
  by_contra hodd
  -- the last reader of an odd number of processes
  have hi : conf.nprocs / 2 < conf.readers := by
    unfold Conf.readers
    rw [if_pos hmixed]
    omega
  obtain ⟨off, rest, hoff⟩ := Conf.getIoposition_ok hbs henough (hi.trans_le conf.readers_le) 0 0 0 0 []
  have hrow := (h.row (.read hint hi hoff)).2
  unfold Conf.pos Conf.trackerRows Conf.writers at hrow
  rw [hraw, hmixed] at hrow
  exact absurd hrow (lt_irrefl _)

theorem separated_of_integrity_eq_zero (hint : conf.integrity = 0) (hcounters : CountersApart conf info g₀) :
    Separated conf info g₀ := by
  have hnone : ∀ {i row k}, ¬ TrackerAccess conf i row k := by
    intro i row k h
    cases h <;> omega
  exact ⟨fun h => absurd h hnone, fun h => absurd h hnone, fun h => absurd h hnone, fun h => absurd h hnone,
    countersApart_iff.mp hcounters⟩

theorem separated_of_paired
    (hrows : conf.trackerRows = 0 ∨ conf.blockSize ∣ conf.filesize ∧ (conf.totblocks = 0 ∨ conf.Fits info))
    (hpaired : conf.Paired) (hcounters : CountersApart conf info g₀) : Separated conf info g₀ := by
  have hdvd : conf.trackerRows = 0 ∨ conf.blockSize ∣ conf.filesize := hrows.imp_right And.left
  refine ⟨fun h => (h.bounds hdvd hpaired).2.2, fun h => ⟨(h.bounds hdvd hpaired).1, (h.bounds hdvd hpaired).2.1⟩,
    ?_, ?_, countersApart_iff.mp hcounters⟩
  · intro i row k h
    obtain ⟨-, hrow, hk⟩ := h.bounds hdvd hpaired
    have hfits : conf.Fits info := by
      rcases hrows with h0 | ⟨-, h0 | hfits⟩
      · omega
      · omega
      · exact hfits
    refine le_trans ?_ hfits
    unfold entryEnd
    exact Nat.add_le_add_left (Nat.mul_le_mul_left _ (entry_lt hrow hk)) _
  · intro i row k h sh sh' e htrack
    exact ⟨(Shared.track_eq_ok htrack).1, fun row' hne k' hk' =>
      Shared.track_other (h.bounds hdvd hpaired).2.2 hk' (fun hsame => hne hsame.1) htrack⟩

/-- **Exactly when the rows of the tracker are kept apart.**  The accesses are those the code makes: they cover
what population and writes change, in the rows and in the counters, and what the static check reads. -/
theorem tracker_separated_iff (hbs : 4096 ≤ conf.blockSize) :
    (Separated conf info g₀ ↔ (conf.integrity = 0 ∨
      ((conf.trackerRows = 0 ∨ conf.blockSize ∣ conf.filesize ∧ (conf.totblocks = 0 ∨ conf.Fits info)) ∧
        conf.Paired)) ∧ CountersApart conf info g₀) ∧
    (∀ i ∈ conf.populated, ∀ draws s s', realPopulate conf info i draws s = .ok s' →
      ∀ j, s'.shared.contentMap[j]? ≠ s.shared.contentMap[j]? →
        ∃ k, TrackerAccess conf i (conf.pos i) k ∧ j = conf.pos i * conf.totblocks + k) ∧
    (∀ w s s', w.idproc < conf.writers → processWrite conf info s w = .ok s' →
      ∀ j, s'.shared.contentMap[j]? ≠ s.shared.contentMap[j]? →
        ∃ k, TrackerAccess conf w.idproc (conf.pos w.idproc) k ∧ j = conf.pos w.idproc * conf.totblocks + k) ∧
    (∀ i ∈ conf.populated, ∀ sh sh' : Shared, conf.integrity = 1 ∨ conf.integrity = 3 →
      (∀ k, TrackerAccess conf i i k → sh.contentTracker conf i k = sh'.contentTracker conf i k) →
        ∀ f draws fresh g,
          fileIntegrity conf info sh f i draws fresh g = fileIntegrity conf info sh' f i draws fresh g) ∧
    (∀ i b sh sh', Emitted g₀ b → (i ∈ conf.populated ∧ populateCount conf info sh b = .ok sh' ∨
      i < conf.writers ∧ ∃ q q', processCount conf info q sh b = .ok (q', sh')) →
        ∀ j, sh'.statistics[j]? ≠ sh.statistics[j]? → CounterAccess conf info g₀ i j) := by
  refine ⟨⟨fun h => ⟨?_, countersApart_iff.mpr h.counters⟩, ?_⟩, fun i hi draws s s' h => realPopulate_access hi h,
    fun w s s' hw h => processWrite_access hw h, fun i hi sh sh' hint h f draws fresh g => fileIntegrity_access hint hi h,
    ?_⟩
  · by_cases hint : conf.integrity = 0
    · exact .inl hint
    · exact .inr ⟨h.fits hint, h.paired hbs⟩
  · rintro ⟨hint | ⟨hrows, hpaired⟩, hcounters⟩
    · exact separated_of_integrity_eq_zero hint hcounters
    · exact separated_of_paired hrows hpaired hcounters
  · rintro i b sh sh' hb (⟨hi, h⟩ | ⟨hi, q, q', h⟩)
    · exact populateCount_access hi hb h
    · exact processCount_access hi hb h

theorem twoFiles_separated : ∃ g₀ info,
    initializeGenerator twoFiles.generator (some plainDistribution) plainDraws = .ok (g₀, some info, 1) ∧
      Separated twoFiles info g₀ := by
  obtain ⟨g₀, info, h, hg⟩ := exists_of_loadsWith (x := initializeGenerator twoFiles.generator
    (some plainDistribution) plainDraws) (T := fun _ info => info.duplicatedBlocks = 4) (by decide +kernel)
  have hdup : info.duplicatedBlocks = 4 := of_decide_eq_true hg
  refine ⟨g₀, info, h, (tracker_separated_iff (by decide)).1.mpr ⟨.inr ⟨.inr ⟨by decide, .inr ?_⟩, fun hmixed => ?_⟩,
    fun hd => ?_⟩⟩
  · unfold Conf.Fits Conf.sharedmemSize
    rw [hdup]
    decide
  · cases hmixed
  · cases hd

/-- Some information about a distribution, with twelve blocks with copies. -/
def someInfo : DuplicatesInfo := ⟨16, 4, 12, 0⟩

/-- Two files of 1 MiB in blocks of 12 KiB, which do not fill them. -/
def twelveKiB : Conf := sampleConf 12288 2 50 (by decide)

/-- The last round over the first file uses entry 85 of a row of 85: the first of the other file. -/
theorem twelveKiB_corrupts : (∀ g₀, ¬ Separated twelveKiB someInfo g₀) ∧ TrackerAccess twelveKiB 0 0 85 ∧
    ∃ sh', Shared.track twelveKiB (loadmmap twelveKiB someInfo (fun _ => 0) fun _ => ⟨0, 0, 0, 0, 0⟩) 0 85
      ⟨7, 0, 7, 1, 0⟩ = .ok sh' ∧ sh'.contentTracker twelveKiB 1 0 = .ok ⟨7, 0, 7, 1, 0⟩ := by
  have haccess : TrackerAccess twelveKiB 0 0 85 :=
    .populate (i := 0) (k := 85) (by decide) (Conf.mem_populated.mpr (by decide)) (by decide)
  refine ⟨fun g₀ h => absurd (h.index haccess) (by decide), haccess, ?_⟩
  have h : okWith (Shared.track twelveKiB (loadmmap twelveKiB someInfo (fun _ => 0) fun _ => ⟨0, 0, 0, 0, 0⟩) 0 85
      ⟨7, 0, 7, 1, 0⟩) fun sh' => okWith (sh'.contentTracker twelveKiB 1 0) fun e => e = ⟨7, 0, 7, 1, 0⟩ := by
    decide +kernel
  obtain ⟨sh', htrack, h⟩ := exists_of_okWith h
  obtain ⟨e, he, h⟩ := exists_of_okWith h
  exact ⟨sh', htrack, he.trans (congrArg _ (of_decide_eq_true h))⟩

end Dedisbench
