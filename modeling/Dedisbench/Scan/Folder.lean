import Dedisbench.Lib.Occur
import Dedisbench.Scan.Kept
import Dedisbench.Scan.Merge
import Dedisbench.Scan.ScansOnce
import Dedisbench.Scan.Setup

/-!
# What DEDISgen measures

`main` opens its databases, scans a folder or a device for all block sizes at once, and for each size prints a summary
and writes a distribution.  From the options to the lines of the distribution this comes to one statement: the summary
and the distribution of a size are those of the blocks of that size that the files of the folder are cut into, however
the folder lists them and in whatever order the cursors go (`gen_measured`).
-/

namespace Dedisbench

open Paths Tally Cut Occur ExceptRun

/-! ### The scan -/

/-- The counters of one block size. -/
structure Counts where
  totalBlocks : UInt64
  eq : UInt64
  dif : UInt64
  distinctdup : UInt64
  space : UInt64

/-- The counters after `bzero`. -/
def Counts.zero : Counts := ⟨0, 0, 0, 0, 0⟩

/-- The counters with the database they belong to. -/
def Counts.scan (c : Counts) (db : DuplicateDb) : Scan := ⟨c.totalBlocks, c.eq, c.dif, c.distinctdup, c.space, db⟩

def Scan.counts (s : Scan) : Counts := ⟨s.totalBlocks, s.eq, s.dif, s.distinctdup, s.space⟩

/-- What a run works on: the arrays of counters, by the position of the size, and the disk. -/
structure GenState where
  counts : ℕ → Counts
  disk : Disk

/-- The disk when the scan starts; all counters are zero. -/
def GenState.init (d : Disk) : GenState := ⟨fun _ => .zero, d⟩

/-- What `-f` or `-d` name: a folder, or a device with what can be read from it if it opens. -/
inductive Device where
  | folder (devicepath : List Char)
  | device (content : Option (List UInt8))

/-- What `main` prints for a size. -/
structure Summary where
  filesScanned : UInt64
  totalBlocks : UInt64
  zerodups : UInt64
  distinctdup : UInt64
  eq : UInt64
  space : UInt64

section Defs

variable (sha1 : List UInt8 → Digest) (mkdir : List Char → Bool) (cwd : Loc) (a : GenArgs) (fs : FileSystem)
  (sizesProc : List ℤ)

/-- `check_duplicates`, on the counters and the database at the position `idBlocksize`. -/
def checkDuplicatesAt (idBlocksize : ℕ) (bsize : ℤ) (s : GenState) (block : List UInt8) : GenState :=
  let loc := duplicateLoc cwd a idBlocksize
  let f := s.disk.content loc
  let scan := checkDuplicates sha1 (.ofInt bsize) ((s.counts idBlocksize).scan f.hashes) block
  ⟨Function.update s.counts idBlocksize scan.counts, Function.update s.disk loc (some { f with hashes := scan.db })⟩

/-- `main` up to the results: the number of files scanned, the counters and the databases. -/
def genScan (fuel : ℕ) (dev : Device) (disk : Disk) : Exec (UInt64 × GenState) := do
  let d ← setup mkdir cwd a disk
  match dev with
  | .folder devicepath => do
    let s ← searchDir fs (checkDuplicatesAt sha1 cwd a) sizesProc fuel devicepath (.init (.init d))
    .ok (s.nfiles, s.state)
  | .device content => do
    let s ← extractBlocks (checkDuplicatesAt sha1 cwd a) sizesProc content (.init d)
    .ok (0, s)

end Defs

/-- The summary of the size at position `aux`. -/
def GenState.summary (s : GenState) (nfiles : UInt64) (aux : ℕ) : Summary :=
  let c := s.counts aux
  ⟨nfiles, c.totalBlocks, c.dif - c.distinctdup, c.distinctdup, c.eq, c.space⟩

/-! ### The part of one size -/

/-- What belongs to the size at position `aux`: its counters, and both parts of its database. -/
def GenState.part (s : GenState) (cwd : Loc) (a : GenArgs) (aux : ℕ) : Scan × PrintDb :=
  let f := s.disk.content (duplicateLoc cwd a aux)
  ((s.counts aux).scan f.hashes, f.counts)

section Part

variable {sha1 : List UInt8 → Digest} {cwd : Loc} {a : GenArgs} {s : GenState} {aux i : ℕ} {size : ℤ}
  {block : List UInt8} {loc : Loc}

theorem part_check_self : (checkDuplicatesAt sha1 cwd a aux size s block).part cwd a aux =
    (checkDuplicates sha1 (.ofInt size) (s.part cwd a aux).1 block, (s.part cwd a aux).2) := by
  simp only [GenState.part, checkDuplicatesAt, Function.update_self, content_update_self, Option.getD_some]
  rfl

theorem content_check_of_ne (h : loc ≠ duplicateLoc cwd a i) :
    (checkDuplicatesAt sha1 cwd a i size s block).disk.content loc = s.disk.content loc := content_update_of_ne _ _ h

theorem counts_check_of_ne (h : i ≠ aux) :
    (checkDuplicatesAt sha1 cwd a i size s block).counts aux = s.counts aux := Function.update_of_ne h.symm _ _

theorem part_check_of_ne (h : i ≠ aux) :
    (checkDuplicatesAt sha1 cwd a i size s block).part cwd a aux = s.part cwd a aux := by
  have hloc : duplicateLoc cwd a aux ≠ duplicateLoc cwd a i := fun heq => h (duplicateLoc_injective heq).symm
  rw [GenState.part, content_check_of_ne hloc, counts_check_of_ne h, ← GenState.part]

end Part

/-! ### What is seen of a search -/

/-- The blocks that a file is cut into, none if it does not open. -/
def fileBlocks (b : ℕ) : Option (List UInt8) → List (List UInt8)
  | none => []
  | some content => cutReads readsize readsize_pos b content

section Search

variable {σ τ : Type} {fs : FileSystem} {check : ℕ → ℤ → σ → List UInt8 → σ} {sizesProc : List ℤ} {proj : σ → τ}
  {step : τ → List UInt8 → τ} {id b : ℕ}

theorem extractBlocks_part (hother : ∀ i size s block, i ≠ id → proj (check i size s block) = proj s)
    (hself : ∀ s block, proj (check id b s block) = step (proj s) block)
    (hpos : ∀ size ∈ sizesProc, 1 ≤ size) (hb : sizesProc[id]? = some (b : ℤ)) {file : Option (List UInt8)} {s s' : σ}
    (h : extractBlocks check sizesProc file s = .ok s') : proj s' = (fileBlocks b file).foldl step (proj s) := by
  cases file with
  | none =>
    cases h
    rfl
  | some content =>
    obtain ⟨t, ht, hproj⟩ := extractBlocks_spec check proj step hother hself hpos hb content s
    rw [h] at ht
    cases ht
    exact hproj

/-- **A search, seen through the part of the state that belongs to one size**: `step` on the blocks of the files, in
the order in which they were scanned. -/
theorem searchDir_part (hother : ∀ i size s block, i ≠ id → proj (check i size s block) = proj s)
    (hself : ∀ s block, proj (check id b s block) = step (proj s) block)
    (hpos : ∀ size ∈ sizesProc, 1 ≤ size) (hb : sizesProc[id]? = some (b : ℤ)) {fuel : ℕ} {path : List Char}
    {s s' : Search σ} (h : searchDir fs check sizesProc fuel path s = .ok s') :
    ∃ new, s'.scanned = s.scanned ++ new ∧
      proj s'.state = (new.flatMap fun q => fileBlocks b (fs.openFile q)).foldl step (proj s.state) := by
  induction fuel generalizing path s s' with
  | zero => cases h
  | succ fuel ih =>
    rw [searchDir] at h
    split at h
    · cases h
      exact ⟨[], (List.append_nil _).symm, rfl⟩
    next dirents _ =>
      refine foldlM_inv (P := fun t : Search σ => ∃ new, t.scanned = s.scanned ++ new ∧
        proj t.state = (new.flatMap fun q => fileBlocks b (fs.openFile q)).foldl step (proj s.state))
        (fun t dp t' _ ht h => ?_) ⟨[], (List.append_nil _).symm, rfl⟩ h
      obtain ⟨new, hscanned, hproj⟩ := ht
      unfold searchEntry at h
      split at h
      · cases h
        exact ⟨new, hscanned, hproj⟩
      split at h
      · cases h
      split at h
      · split at h
        · cases h
        · obtain ⟨more, hscanned', hproj'⟩ := ih h
          refine ⟨new ++ more, by rw [hscanned', hscanned, List.append_assoc], ?_⟩
          rw [hproj', hproj, List.flatMap_append, List.foldl_append]
      · obtain ⟨state, hstate, h⟩ := bind_eq_ok.mp h
        cases h
        refine ⟨new ++ [path ++ dp.dName], by rw [hscanned, List.append_assoc], ?_⟩
        rw [extractBlocks_part hother hself hpos hb hstate, hproj, List.flatMap_append, List.foldl_append,
          List.flatMap_singleton]
      · cases h
        exact ⟨new, hscanned, hproj⟩

variable {P : σ → Prop}

theorem extractBlocks_inv (hcheck : ∀ i < sizesProc.length, ∀ size s block, P s → P (check i size s block))
    {file : Option (List UInt8)} {s s' : σ} (hs : P s) (h : extractBlocks check sizesProc file s = .ok s') : P s' := by
  cases file with
  | none =>
    cases h
    exact hs
  | some content =>
    rw [extractBlocks] at h
    generalize 0 = off at h
    induction off, s using readLoop.induct content with
    | case1 off s blockRead hread =>
      rw [readLoop, if_pos hread] at h
      cases h
      exact hs
    | case2 off s blockRead hread ih =>
      rw [readLoop, if_neg hread] at h
      obtain ⟨t, ht, h⟩ := bind_eq_ok.mp h
      refine ih t (foldlM_inv (P := P) (fun u size u' hmem hu hstep => ?_) hs ht) h
      rw [chunkLoop_eq _ _ (pos_of_chunkLoop hstep)] at hstep
      cases hstep
      exact List.foldlRecOn _ _ hu fun v hv block _ => hcheck _ (List.snd_lt_of_mem_zipIdx hmem) _ v block hv

/-- What every block keeps, a search keeps. -/
theorem searchDir_inv (hcheck : ∀ i < sizesProc.length, ∀ size s block, P s → P (check i size s block)) {fuel : ℕ}
    {path : List Char} {s s' : Search σ} (hs : P s.state) (h : searchDir fs check sizesProc fuel path s = .ok s') :
    P s'.state := by
  induction fuel generalizing path s s' with
  | zero => cases h
  | succ fuel ih =>
    rw [searchDir] at h
    split at h
    · cases h
      exact hs
    next dirents _ =>
      refine foldlM_inv (P := fun t : Search σ => P t.state) (fun t dp t' _ ht h => ?_) hs h
      unfold searchEntry at h
      split at h
      · cases h
        exact ht
      split at h
      · cases h
      split at h
      · split at h
        · cases h
        · exact ih ht h
      · obtain ⟨state, hstate, h⟩ := bind_eq_ok.mp h
        cases h
        exact extractBlocks_inv hcheck ht hstate
      · cases h
        exact ht

end Search

/-! ### The files of a folder -/

/-- What can be read of the file at a location. -/
def FileSystem.content (fs : FileSystem) (loc : Loc) : Option (List UInt8) :=
  match fs.node loc with
  | some (.reg content) => content
  | _ => none

/-- The blocks that the files under a directory are cut into. -/
def FileSystem.blocks (fs : FileSystem) (loc : Loc) (b : ℕ) : List (List UInt8) :=
  (fs.files loc).flatMap fun l => cut b ((fs.content l).getD [])

theorem fileBlocks_eq_cut {b : ℕ} (hb : 0 < b) (hdvd : b ∣ readsize) (file : Option (List UInt8)) :
    fileBlocks b file = cut b (file.getD []) := by
  cases file with
  | none => exact (cut_nil hb).symm
  | some content => exact cutReads_of_dvd readsize_pos hb hdvd content

/-- A search that scans every file once comes upon the blocks of the folder. -/
theorem perm_blocks {fs : FileSystem} {loc : Loc} {b : ℕ} {scanned : List (List Char)} {locs : List Loc} (hb : 0 < b)
    (hdvd : b ∣ readsize) (hlocs : scanned.map fs.resolve = locs.map some) (hnodup : locs.Nodup)
    (hmem : ∀ l, l ∈ locs ↔ fs.IsFile l ∧ loc <+: l) :
    (scanned.flatMap fun q => fileBlocks b (fs.openFile q)).Perm (fs.blocks loc b) := by
  have hperm : locs.Perm (fs.files loc) :=
    (List.perm_ext_iff_of_nodup hnodup (fs.nodup_files loc)).mpr fun l => by rw [hmem, FileSystem.mem_files]
  have hopen : ∀ q, fileBlocks b (fs.openFile q) = cut b (((fs.resolve q).bind fs.content).getD []) := fun q => by
    rw [fileBlocks_eq_cut hb hdvd]
    rfl
  have hsame : (scanned.flatMap fun q => fileBlocks b (fs.openFile q)) =
      locs.flatMap fun l => cut b ((fs.content l).getD []) := by
    have hmap := congrArg (List.flatMap fun o : Option Loc => cut b ((o.bind fs.content).getD [])) hlocs
    rw [List.flatMap_map, List.flatMap_map] at hmap
    simp only [hopen]
    exact hmap
  rw [hsame]
  exact hperm.flatMap_right _

/-! ### The results of a size -/

section Results

variable {α β : Type} [DecidableEq α] [BEq α] [DecidableEq β] [BEq β] {xs ys : List α}
  {sha1 : List UInt8 → Digest} {cwd : Loc} {a : GenArgs} {aux b : ℕ} {blocks : List (List UInt8)} {s : GenState}
  {nfiles : UInt64}

/-- The summary of a size says what a sequence says: the digests of the blocks, or anything that repeats where they
do. -/
structure SummaryExact (b : ℕ) (xs : List α) (m : Summary) : Prop where
  totalBlocks : m.totalBlocks.toNat = xs.length
  zerodups : m.zerodups.toNat = (withCount xs (· = 1)).card
  distinctdup : m.distinctdup.toNat = (withCount xs (2 ≤ ·)).card
  eq : m.eq.toNat + (withCount xs (0 < ·)).card = xs.length
  space : m.space = m.eq * .ofNat b

/-- What is measured for the size `b` at position `aux`: the summary and the distribution are those of the sequence.  A
line of the distribution says how many elements have a number of duplicates, and there is one for every number that
some element has. -/
structure Measured (cwd : Loc) (a : GenArgs) (aux b : ℕ) (xs : List α) (nfiles : UInt64) (s : GenState) : Prop where
  summary : SummaryExact b xs (s.summary nfiles aux)
  distribution : a.outputfile → ∀ d', Outputs cwd a aux s.disk d' →
    ∀ recs, (d'.content (duplicateLoc cwd a aux)).Cursor recs →
    ∀ lines, Visits ((genOutputAt cwd a aux recs d').content (printLoc cwd a aux)).counts lines →
    ∀ k n, (k, n) ∈ lines ↔ n ≠ 0 ∧ n.toNat = occurring xs (k.toNat + 1)

theorem SummaryExact.congr {zs : List β} {m : Summary} (h : SummaryExact b xs m) (hlen : xs.length = zs.length)
    (hcard : ∀ (p : ℕ → Prop) [DecidablePred p], (withCount xs p).card = (withCount zs p).card) :
    SummaryExact b zs m where
  totalBlocks := h.totalBlocks.trans hlen
  zerodups := h.zerodups.trans (hcard _)
  distinctdup := h.distinctdup.trans (hcard _)
  eq := by rw [← hcard, ← hlen, h.eq]
  space := h.space

theorem Measured.congr {zs : List β} (h : Measured cwd a aux b xs nfiles s) (hlen : xs.length = zs.length)
    (hcard : ∀ (p : ℕ → Prop) [DecidablePred p], (withCount xs p).card = (withCount zs p).card) :
    Measured cwd a aux b zs nfiles s where
  summary := h.summary.congr hlen hcard
  distribution hout d' hd' recs hrecs lines hlines k n := by
    rw [h.distribution hout d' hd' recs hrecs lines hlines k n]
    exact and_congr_right fun _ => iff_of_eq (congrArg (n.toNat = ·) (hcard (· = k.toNat + 1)))

theorem Measured.perm (h : Measured cwd a aux b xs nfiles s) (hperm : xs.Perm ys) :
    Measured cwd a aux b ys nfiles s :=
  h.congr hperm.length_eq fun p _ => by rw [withCount_perm hperm]

section Counted

variable {c : Scan} (h : Counted (.ofNat b) (keysOf sha1 blocks) c)
include h

/-- The keys of the database stand for the digests of the blocks. -/
theorem Counted.keys_eq_image : c.db.keys = (blocks.map sha1).toFinset.image visual := by
  rw [h.keys_db, keysOf_eq_map]
  ext key
  simp only [List.mem_toFinset, List.mem_map, Finset.mem_image]

variable (hlen : blocks.length < 2 ^ 64)
include hlen

theorem Counted.card_filter_value (p : ℕ → Prop) [DecidablePred p] :
    (c.db.keys.filter fun k => p (valueAt c.db k).toNat).card = (withCount (blocks.map sha1) p).card := by
  rw [h.keys_eq_image, Finset.filter_image, Finset.card_image_of_injective _ visual_injective, withCount]
  congr 1
  exact Finset.filter_congr fun d _ => by rw [h.toNat_valueAt hlen, count_keysOf]

/-- The summary of the counters that count the blocks. -/
theorem Counted.summaryExact (nfiles : UInt64) : SummaryExact b (blocks.map sha1)
    ⟨nfiles, c.totalBlocks, c.dif - c.distinctdup, c.distinctdup, c.eq, c.space⟩ := by
  have hagrees := h.scanAgrees hlen
  obtain ⟨recs, hrecs⟩ := exists_visits c.db
  have hdist := h.outputAgrees hlen hrecs
  have hdif : c.dif.toNat = (withCount (blocks.map sha1) (0 < ·)).card := by
    rw [h.toNat_dif hlen, h.keys_eq_image, Finset.card_image_of_injective _ visual_injective, withCount_pos]
  have htotal := hagrees.totalBlocks
  rw [h.toNat_totalBlocks hlen] at htotal
  refine ⟨(h.toNat_totalBlocks hlen).trans (List.length_map _).symm, ?_, ?_, ?_, h.space⟩
  · show c.zerodups.toNat = _
    rw [← hdist.zerodups, hdist.counts 0]
    rfl
  · rw [← h.card_filter_value hlen]
    exact h.toNat_distinctdup hlen
  · dsimp only
    rw [List.length_map]
    omega

end Counted

/-- The records of a distribution that is made from nothing: a count for each number that is there. -/
theorem mem_lines_iff {recs : List (List UInt8 × UInt64)} {lines : List (UInt64 × UInt64)}
    (hlines : Visits (genOutput recs ∅) lines) (hlen : recs.length < 2 ^ 64) (k n : UInt64) :
    (k, n) ∈ lines ↔ n ≠ 0 ∧ valueAt (genOutput recs ∅) k = n := by
  have hzero : k ∈ genOutput recs ∅ → valueAt (genOutput recs ∅) k ≠ 0 := by
    rw [genOutput_eq, mem_tally]
    intro hmem hval
    have hcount := toNat_valueAt_tally (show (recs.map fun r => r.2 - 1).length < 2 ^ 64 by rwa [List.length_map]) k
    rw [hval] at hcount
    exact absurd hcount.symm (List.count_pos_iff.mpr hmem).ne'
  rw [hlines.mem_iff]
  constructor
  · intro h
    have hval := valueAt_of_lookup h
    exact ⟨hval ▸ hzero (Finmap.mem_iff.mpr ⟨n, h⟩), hval⟩
  · rintro ⟨hne, rfl⟩
    apply lookup_of_mem
    by_contra hnot
    exact hne (valueAt_of_notMem hnot)

/-- **What is measured**, from the part of the size and its print database when the scan has come to its end. -/
theorem GenState.measured (hpart : s.part cwd a aux = (scanBlocks sha1 (.ofNat b) .init blocks, ∅))
    (hprint : a.outputfile → s.disk.content (printLoc cwd a aux) = .empty) (hlen : blocks.length < 2 ^ 64) :
    Measured cwd a aux b (blocks.map sha1) nfiles s := by
  have hcounted := Counted.scan sha1 (.ofNat b) hlen.le
  obtain ⟨hscan, hcounts⟩ := Prod.mk.inj hpart
  have hdb : (s.disk.content (duplicateLoc cwd a aux)).hashes = (scanBlocks sha1 (.ofNat b) .init blocks).db :=
    congrArg Scan.db hscan
  refine ⟨?_, fun hout d' hd' recs hrecs lines hlines k n => ?_⟩
  · have hsummary := hcounted.summaryExact hlen nfiles
    rw [← hscan] at hsummary
    exact hsummary
  · obtain ⟨hs, cs, hvisits, hvisits', hperm⟩ := hrecs
    rw [hd'.content_duplicate] at hvisits hvisits'
    rw [hcounts] at hvisits'
    obtain rfl : cs = [] := by
      rw [← List.length_eq_zero_iff, hvisits'.length]
      rfl
    rw [List.map_nil, List.append_nil] at hperm
    rw [hdb] at hvisits
    rw [genOutputAt, content_update_self, hd'.content_print, hprint hout] at hlines
    have hsame : genOutput recs ∅ = genOutput hs ∅ := genOutput_perm hperm
    have hshort : hs.length < 2 ^ 64 := by
      rw [hvisits.length]
      exact hcounted.card_keys_lt hlen
    have hlines : Visits (genOutput hs ∅) lines := hsame ▸ hlines
    rw [mem_lines_iff hlines hshort, ← UInt64.toNat_inj, (hcounted.outputAgrees hlen hvisits).counts k, eq_comm]
    rfl

end Results

/-! ### A run -/

/-- The databases are the run's own: those of an earlier run are removed, or were empty, and no size has its duplicates
in the print database of a size. -/
structure OwnDatabases (cwd : Loc) (a : GenArgs) (disk : Disk) : Prop where
  removedb : a.removedb = true
  removed : ∀ aux < a.nrSizesProc, locate cwd "./benchdbs".toList <+: duplicateLoc cwd a aux ∨
    locate cwd "./gendbs".toList <+: duplicateLoc cwd a aux ∨ disk.content (duplicateLoc cwd a aux) = .empty
  apart : a.outputfile → ∀ i < a.nrSizesProc, ∀ j < a.nrSizesProc, duplicateLoc cwd a i ≠ printLoc cwd a j

section Run

variable {sha1 : List UInt8 → Digest} {mkdir : List Char → Bool} {cwd : Loc} {a : GenArgs} {fs : FileSystem}
  {sizesProc : List ℤ} {disk d : Disk} {aux b : ℕ}

theorem OwnDatabases.part (h : OwnDatabases cwd a disk) (hsetup : setup mkdir cwd a disk = .ok d)
    (haux : aux < a.nrSizesProc) : (GenState.init d).part cwd a aux = (.init, ∅) := by
  have hempty : d.content (duplicateLoc cwd a aux) = .empty := by
    rw [content_setup_duplicate hsetup]
    exact (content_removeOld_eq_empty h.removedb).mpr (h.removed aux haux)
  rw [GenState.part, GenState.init, hempty]
  rfl

theorem OwnDatabases.print (h : OwnDatabases cwd a disk) (hsetup : setup mkdir cwd a disk = .ok d) (aux : ℕ) :
    d.content (printLoc cwd a aux) = .empty := by
  rw [content_setup_print hsetup]
  exact content_removeOld_print h.removedb aux

/-- The blocks of a size, counted. -/
def countBlock (sha1 : List UInt8 → Digest) (b : ℕ) (p : Scan × PrintDb) (block : List UInt8) : Scan × PrintDb :=
  (checkDuplicates sha1 (.ofNat b) p.1 block, p.2)

theorem foldl_countBlock (blocks : List (List UInt8)) (p : Scan × PrintDb) :
    blocks.foldl (countBlock sha1 b) p = (scanBlocks sha1 (.ofNat b) p.1 blocks, p.2) := by
  induction blocks generalizing p with
  | nil => rfl
  | cons block blocks ih => rw [List.foldl_cons, ih, scanBlocks, scanBlocks, List.foldl_cons, countBlock]

theorem ofInt_natCast (b : ℕ) : UInt64.ofInt (b : ℤ) = .ofNat b := by
  rw [← UInt64.toNat_inj, UInt64.toNat_ofNat', UInt64.ofInt, UInt64.toNat_ofNat', Nat.mod_eq_of_lt]
  · rfl
  · omega

theorem part_countBlock (s : GenState) (block : List UInt8) :
    (checkDuplicatesAt sha1 cwd a aux b s block).part cwd a aux = countBlock sha1 b (s.part cwd a aux) block := by
  rw [part_check_self, ofInt_natCast, countBlock]

theorem search_part {fuel : ℕ} {path : List Char} {s s' : Search GenState} (hpos : ∀ size ∈ sizesProc, 1 ≤ size)
    (hb : sizesProc[aux]? = some (b : ℤ))
    (h : searchDir fs (checkDuplicatesAt sha1 cwd a) sizesProc fuel path s = .ok s') :
    ∃ new, s'.scanned = s.scanned ++ new ∧ s'.state.part cwd a aux =
      (new.flatMap fun q => fileBlocks b (fs.openFile q)).foldl (countBlock sha1 b) (s.state.part cwd a aux) :=
  @searchDir_part _ _ fs (checkDuplicatesAt sha1 cwd a) sizesProc (fun s => s.part cwd a aux) (countBlock sha1 b) aux b
    (fun _ _ _ _ hi => part_check_of_ne hi) part_countBlock hpos hb _ _ _ _ h

/-- **What is measured**, from the parts of the state at the start and at the end of the scan. -/
theorem OwnDatabases.measured {s : GenState} {blocks : List (List UInt8)} (h : OwnDatabases cwd a disk)
    (hsetup : setup mkdir cwd a disk = .ok d) (haux : aux < a.nrSizesProc)
    (hpart : s.part cwd a aux = blocks.foldl (countBlock sha1 b) ((GenState.init d).part cwd a aux))
    (hprint : a.outputfile → s.disk.content (printLoc cwd a aux) = d.content (printLoc cwd a aux))
    (hlen : blocks.length < 2 ^ 64) (nfiles : UInt64) : Measured cwd a aux b (blocks.map sha1) nfiles s := by
  apply GenState.measured _ (fun hout => (hprint hout).trans (h.print hsetup aux)) hlen
  rw [hpart, h.part hsetup haux, foldl_countBlock]

theorem OwnDatabases.content_check (h : OwnDatabases cwd a disk) (hout : a.outputfile) (haux : aux < a.nrSizesProc)
    {f : DbFile} (i : ℕ) (hi : i < a.nrSizesProc) (size : ℤ) (s : GenState) (block : List UInt8)
    (hs : s.disk.content (printLoc cwd a aux) = f) :
    (checkDuplicatesAt sha1 cwd a i size s block).disk.content (printLoc cwd a aux) = f :=
  (content_check_of_ne (h.apart hout i hi aux haux).symm).trans hs

theorem genScan_folder {path : List Char} {loc : Loc} (hloc : fs.resolve path = some loc)
    (hslash : (path.splitOn '/').getLast? = some []) (hread : Readable fs sizesProc path loc)
    (hpos : ∀ size ∈ sizesProc, 1 ≤ size) (hfits : SetupFits mkdir a) (hn : a.nrSizesProc = sizesProc.length)
    (hown : OwnDatabases cwd a disk) (sha1 : List UInt8 → Digest) :
    ∃ n, ∀ fuel, n ≤ fuel → ∃ nfiles s,
      genScan sha1 mkdir cwd a fs sizesProc fuel (.folder path) disk = .ok (nfiles, s) ∧
      nfiles.toNat = (fs.files loc).length ∧
      ∀ aux b : ℕ, sizesProc[aux]? = some (b : ℤ) → b ∣ readsize → (fs.blocks loc b).length < 2 ^ 64 →
        Measured cwd a aux b ((fs.blocks loc b).map sha1) nfiles s := by
  obtain ⟨par, x, hp, henter, hlast⟩ := FileSystem.exists_leads (FileSystem.resolve_eq_some.mp hloc).2
  obtain rfl : x = [] := Option.some.inj (hlast.symm.trans hslash)
  obtain rfl : loc = par := by
    have hstep := (FileSystem.enter_eq_some.mp henter).2.2
    rwa [step_nil] at hstep
  obtain ⟨d, hsetup⟩ := (setup_ok_iff (d := disk)).mpr hfits
  obtain ⟨n, hscan⟩ : ScansOnce fs (checkDuplicatesAt sha1 cwd a) sizesProc path loc (.init d) :=
    hread.scansOnce hp _
  refine ⟨n, fun fuel hfuel => ?_⟩
  obtain ⟨s, hs, ⟨⟨locs, hlocs, hnodup, hmem⟩, hopen, hnfiles⟩⟩ :=
    (hscan fuel hfuel).resolve_left (searchDir_ne_exit _ _ _)
  refine ⟨s.nfiles, s.state, ?_, ?_, fun aux b hb hdvd hlen => ?_⟩
  · rw [genScan, hsetup, bind_ok]
    simp only [hs, bind_ok]
  · have hperm : locs.Perm (fs.files loc) :=
      (List.perm_ext_iff_of_nodup hnodup (fs.nodup_files loc)).mpr fun l => by rw [hmem, FileSystem.mem_files]
    have hlength := congrArg List.length hlocs
    rw [List.length_map, List.length_map] at hlength
    rw [hnfiles, List.countP_eq_length.mpr hopen, hlength, hperm.length_eq]
  · have haux : aux < a.nrSizesProc := by
      rw [hn]
      exact (List.getElem?_eq_some_iff.mp hb).1
    have hb0 : 0 < b := by
      have := hpos _ (List.mem_of_getElem? hb)
      omega
    obtain ⟨new, hscanned, hpart⟩ := search_part hpos hb hs
    obtain rfl : s.scanned = new := hscanned
    have hblocks := perm_blocks hb0 hdvd hlocs hnodup hmem
    refine (hown.measured hsetup haux hpart (fun hout => ?_) (hblocks.length_eq ▸ hlen) _).perm (hblocks.map sha1)
    exact searchDir_inv (P := fun s : GenState => s.disk.content (printLoc cwd a aux) = _)
      (fun i hi size s block => hown.content_check hout haux i (hn ▸ hi) size s block) rfl hs

theorem genScan_device (content : List UInt8) (hpos : ∀ size ∈ sizesProc, 1 ≤ size) (hfits : SetupFits mkdir a)
    (hn : a.nrSizesProc = sizesProc.length) (hown : OwnDatabases cwd a disk) (sha1 : List UInt8 → Digest) (fuel : ℕ) :
    ∃ s, genScan sha1 mkdir cwd a fs sizesProc fuel (.device (some content)) disk = .ok (0, s) ∧
      ∀ aux b : ℕ, sizesProc[aux]? = some (b : ℤ) → b ∣ readsize → (cut b content).length < 2 ^ 64 →
        Measured cwd a aux b ((cut b content).map sha1) 0 s := by
  obtain ⟨d, hsetup⟩ := (setup_ok_iff (d := disk)).mpr hfits
  obtain ⟨s, hs⟩ : ∃ s, extractBlocks (checkDuplicatesAt sha1 cwd a) sizesProc (some content) (.init d) = .ok s :=
    extractBlocks_ok (fun _ _ _ => hpos) _
  refine ⟨s, ?_, fun aux b hb hdvd hlen => ?_⟩
  · rw [genScan, hsetup, bind_ok]
    simp only [hs, bind_ok]
  · have haux : aux < a.nrSizesProc := by
      rw [hn]
      exact (List.getElem?_eq_some_iff.mp hb).1
    have hb0 : 0 < b := by
      have := hpos _ (List.mem_of_getElem? hb)
      omega
    have hpart := @extractBlocks_part _ _ (checkDuplicatesAt sha1 cwd a) sizesProc (fun s => s.part cwd a aux)
      (countBlock sha1 b) aux b (fun _ _ _ _ hi => part_check_of_ne hi) part_countBlock hpos hb _ _ _ hs
    rw [fileBlocks_eq_cut hb0 hdvd] at hpart
    refine hown.measured hsetup haux hpart (fun hout => ?_) hlen 0
    exact extractBlocks_inv (P := fun s : GenState => s.disk.content (printLoc cwd a aux) = _)
      (fun i hi size s block => hown.content_check hout haux i (hn ▸ hi) size s block) rfl hs

/-- A device that is scanned to its end, and the contents of its files.  The path of a folder ends with a slash. -/
inductive Holds (fs : FileSystem) (sizesProc : List ℤ) : Device → List (List UInt8) → Prop
  | folder {path : List Char} (loc : Loc) {contents : List (List UInt8)} (hloc : fs.resolve path = some loc)
    (hslash : (path.splitOn '/').getLast? = some []) (hread : Readable fs sizesProc path loc)
    (hperm : ((fs.files loc).map fs.content).Perm (contents.map some)) : Holds fs sizesProc (.folder path) contents
  | device (content : List UInt8) : Holds fs sizesProc (.device (some content)) [content]

/-- The number of files that are counted: those of a folder. -/
def Device.count (dev : Device) (contents : List (List UInt8)) : ℕ :=
  match dev with
  | .folder _ => contents.length
  | .device _ => 0

theorem Holds.measured {dev : Device} {contents : List (List UInt8)} (h : Holds fs sizesProc dev contents)
    (hpos : ∀ size ∈ sizesProc, 1 ≤ size) (hfits : SetupFits mkdir a) (hn : a.nrSizesProc = sizesProc.length)
    (hown : OwnDatabases cwd a disk) (sha1 : List UInt8 → Digest) :
    ∃ n, ∀ fuel, n ≤ fuel → ∃ nfiles s,
      genScan sha1 mkdir cwd a fs sizesProc fuel dev disk = .ok (nfiles, s) ∧ nfiles.toNat = dev.count contents ∧
      ∀ aux b : ℕ, sizesProc[aux]? = some (b : ℤ) → b ∣ readsize → (contents.flatMap (cut b)).length < 2 ^ 64 →
        Measured cwd a aux b ((contents.flatMap (cut b)).map sha1) nfiles s := by
  cases h with
  | folder loc hloc hslash hread hperm =>
    obtain ⟨n, h⟩ := genScan_folder hloc hslash hread hpos hfits hn hown sha1
    refine ⟨n, fun fuel hfuel => ?_⟩
    obtain ⟨nfiles, s, hs, hnfiles, hmeasured⟩ := h fuel hfuel
    have hlength := hperm.length_eq
    rw [List.length_map, List.length_map] at hlength
    refine ⟨nfiles, s, hs, hnfiles.trans hlength, fun aux b hb hdvd hlen => ?_⟩
    have hblocks : (fs.blocks loc b).Perm (contents.flatMap (cut b)) := by
      have hcut := hperm.flatMap_right fun c => cut b (c.getD [])
      rwa [List.flatMap_map, List.flatMap_map] at hcut
    exact (hmeasured aux b hb hdvd (hblocks.length_eq ▸ hlen)).perm (hblocks.map sha1)
  | device content =>
    refine ⟨0, fun fuel _ => ?_⟩
    obtain ⟨s, hs, hmeasured⟩ := @genScan_device mkdir cwd a fs sizesProc disk content hpos hfits hn hown sha1 fuel
    refine ⟨0, s, hs, rfl, fun aux b hb hdvd hlen => ?_⟩
    rw [List.flatMap_singleton] at hlen ⊢
    exact hmeasured aux b hb hdvd hlen

end Run

end Dedisbench
