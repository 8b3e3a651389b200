import Dedisbench.Bench.Tracker

/-!
# Online checks in a mixed load

A writer and a reader of one file.  The writer puts a block into the file and then its entry into the tracker
(`processWrite_split`); the reader reads a block and then checks it against the tracker.  Nothing keeps the two
from mixing, so a block can be checked against the entry of an older or of a newer write.  A check finds no error
exactly when that entry is of the same content (`online_checks_exact`).
-/

namespace Dedisbench

open ByteMem ExceptRun

/-! ### The steps -/

/-- The write branch of `process_run` up to `pwrite`: the offset and the entry of the block. -/
def writerPwrite (conf : Conf) (info : DuplicatesInfo) (s : Sys) (w : WriteStep) : Exec (Sys × ℕ × BlockInfo) := do
  let p := s.procs w.idproc
  let (gen, buf, infoWrite) ← getWritecontent p.gen w.idproc w.draw
  let (iooffset, _) ← getIoposition conf p.totOps p.cNurand w.idproc w.raws
  let (p, shared) ← processCount conf info { p with gen } s.shared infoWrite
  let acessesarray ← countAccess p.acessesarray (iooffset / conf.blockSize)
  let content ← gen.contentAt buf conf.blockSize
  let fd := conf.fileOf w.idproc
  let p := { p with acessesarray, totOps := if w.measured then u64 (p.totOps + 1) else p.totOps }
  .ok ({ s with
    shared
    files := Function.update s.files fd ((s.files fd).pwrite content iooffset)
    procs := Function.update s.procs w.idproc p }, iooffset, infoWrite)

/-- The write branch after `pwrite`: the entry of the block is made. -/
def writerTrack (conf : Conf) (idproc : ℕ) (s : Sys) (iooffset : ℕ) (infoWrite : BlockInfo) : Exec Sys := do
  let shared ← s.shared.track conf (conf.pos idproc) (iooffset / conf.blockSize) infoWrite
  .ok { s with shared }

/-- What an `online_check` found: `read` is the entry of the write that the block read is from, `tracked` the
entry in the tracker, `res` what `online_check` returned, a summand of `integrity_errors`. -/
structure Checked where
  read : BlockInfo
  tracked : BlockInfo
  draw : CheckDraw
  res : ℤ

/-- A reading process.  `fetched` is the offset of a block that has been read and not been checked, and the
entry of the write that it is from. -/
structure Reader where
  gen : Generator
  totOps : ℕ
  cNurand : ℕ
  acessesarray : List ℕ
  buf : Buffer
  fetched : Option (ℕ × BlockInfo)

/-- A writer and a reader of one file.  `lastWrite` is the entry of the last write of each block; `written` is the
offset and the entry of a block that has been written and not been tracked. -/
structure Mixed where
  sys : Sys
  lastWrite : ℕ → BlockInfo
  written : Option (ℕ × BlockInfo)
  reader : Reader
  results : List Checked

/-- The atomic steps of writer and reader `p`, in any order that keeps each one's own. -/
inductive MixedStep (conf : Conf) (info : DuplicatesInfo) (p : ℕ) (m : Mixed) : Mixed → Prop
  | pwrite {w : WriteStep} {s : Sys} {off : ℕ} {e : BlockInfo} (hidle : m.written = none) (hp : w.idproc = p)
    (h : writerPwrite conf info m.sys w = .ok (s, off, e)) :
    MixedStep conf info p m { m with
      sys := s
      lastWrite := Function.update m.lastWrite (off / conf.blockSize) e
      written := some (off, e) }
  | track {off : ℕ} {e : BlockInfo} {s : Sys} (hwritten : m.written = some (off, e))
    (h : writerTrack conf p m.sys off e = .ok s) :
    MixedStep conf info p m { m with sys := s, written := none }
  | pread {raws rest acessesarray : List ℕ} {measured : Bool} {off n : ℕ} {buf : Buffer}
    (hidle : m.reader.fetched = none)
    (hoff : getIoposition conf m.reader.totOps m.reader.cNurand p raws = .ok (off, rest))
    (hcount : countAccess m.reader.acessesarray (off / conf.blockSize) = .ok acessesarray)
    (h : (m.sys.files (conf.fileOf p)).pread m.reader.buf conf.blockSize off = (n, buf)) :
    MixedStep conf info p m { m with
      reader := { m.reader with
        acessesarray, buf
        totOps := if measured then u64 (m.reader.totOps + 1) else m.reader.totOps
        fetched := some (off, m.lastWrite (off / conf.blockSize)) } }
  | check {off : ℕ} {r e : BlockInfo} {d : CheckDraw} {gen : Generator} {v : ℤ} {report : List ReportEntry}
    (hfetched : m.reader.fetched = some (off, r))
    (he : m.sys.shared.contentTracker conf (conf.pos p) (off / conf.blockSize) = .ok e)
    (h : onlineCheck m.reader.gen m.reader.buf e conf.blockSize false info d = .ok (gen, v, report)) :
    MixedStep conf info p m { m with
      reader := { m.reader with gen, fetched := none }
      results := m.results ++ [⟨r, e, d, v⟩] }

/-- Every interleaving of the steps of writer and reader `p`. -/
def MixedRun (conf : Conf) (info : DuplicatesInfo) (p : ℕ) : Mixed → Mixed → Prop :=
  Relation.ReflTransGen (MixedStep conf info p)

/-- Writer and reader `p` as they are forked; the last write of every block is the one of `populate`. -/
def Mixed.start (conf : Conf) (p : ℕ) (s : Sys) (cNurand : ℕ) (fresh : Mem) : Mixed where
  sys := s
  lastWrite k := (s.shared.contentMap[conf.pos p * conf.totblocks + k]?).getD ⟨0, 0, 0, 0, 0⟩
  written := none
  reader := ⟨s.gen, 0, cNurand, List.replicate conf.totblocks 0, ⟨conf.blockSize, fresh⟩, none⟩
  results := []

variable {g₀ : Generator} {conf : Conf} {info : DuplicatesInfo} {p : ℕ} {m m' : Mixed} {s s' : Sys}

/-- **The two steps of the writer are a write.** -/
theorem processWrite_split (w : WriteStep) : processWrite conf info s w =
    (do
      let x ← writerPwrite conf info s w
      writerTrack conf w.idproc x.1 x.2.1 x.2.2) := by
  unfold processWrite writerPwrite Sys.store writerTrack
  simp only
  cases getWritecontent (s.procs w.idproc).gen w.idproc w.draw with
  | error => rfl
  | ok x =>
  obtain ⟨gen, buf, e⟩ := x
  simp only [bind_ok]
  cases getIoposition conf (s.procs w.idproc).totOps (s.procs w.idproc).cNurand w.idproc w.raws with
  | error => rfl
  | ok x =>
  obtain ⟨off, rest⟩ := x
  simp only [bind_ok]
  cases processCount conf info { s.procs w.idproc with gen } s.shared e with
  | error => rfl
  | ok x =>
  obtain ⟨q, shared⟩ := x
  simp only [bind_ok]
  cases countAccess q.acessesarray (off / conf.blockSize) with
  | error => rfl
  | ok accesses =>
  simp only [bind_ok]
  cases gen.contentAt buf conf.blockSize with
  | error => rfl
  | ok content =>
  simp only [bind_ok]
  cases shared.track conf (conf.pos w.idproc) (off / conf.blockSize) e with
  | error => rfl
  | ok tracked => rfl

/-! ### What a check finds -/

/-- Whether the block that a check builds again is the one read. -/
def Checked.Agrees (g₀ : Generator) (c : Checked) : Prop :=
  g₀.contentOf c.read.blockId c.read.compressionIndex c.read.contId g₀.blockSize =
    g₀.rebuiltContent c.tracked c.draw.expected

/-- A check that comes back returns `0` if the block built again is the one read, and `1` if not. -/
theorem Loaded.onlineCheck_res {g g' : Generator} {bs : ℕ} {buf : Buffer} {bytes tracked : List UInt8} {c : Checked}
    {report : List ReportEntry} (hg : Loaded g₀ info) (hbs : g₀.blockSize ≤ bs) (hf : g.frame = g₀.frame)
    (hr : Tracks g₀ bs c.read bytes) (ht : Tracks g₀ bs c.tracked tracked) (hbytes : buf.bytes bs = .ok bytes)
    (h : onlineCheck g buf c.tracked bs false info c.draw = .ok (g', c.res, report)) :
    (c.Agrees g₀ → c.res = 0) ∧ (¬ c.Agrees g₀ → c.res = 1) := by
  obtain rfl : bs = g₀.blockSize := le_antisymm (hr.blockSize_le hg) hbs
  obtain ⟨h4, -, -, hread⟩ := hg.of_tracks hr
  obtain ⟨-, -, hid, hof⟩ := hg.of_tracks ht
  obtain ⟨rebuilt, hrebuilt⟩ := hg.exists_rebuilt h4 hof c.draw.expected
  have hagrees : c.Agrees g₀ ↔ bytes = rebuilt := by
    rw [Checked.Agrees, hread, hrebuilt, Except.ok.injEq]
  -- the checker works on the reader's generator, with whatever is stamped on its models
  have hgl := hg.of_frame hf
  have hgbs := Generator.blockSize_of_frame hf
  have hd := hgl.drawn_of_onlineCheck hid h
  rw [Generator.rebuiltContent, ← Generator.contentOf_of_frame hf, ← Generator.drawn_of_frame hf, ← hgbs] at hrebuilt
  rw [← hgbs] at h4 hbytes h
  rw [hagrees]
  by_cases heq : bytes = rebuilt
  · obtain ⟨g₁, hcheck⟩ := hgl.onlineCheck_of_eq (z := false) hid hd hrebuilt hbytes heq
    have hv := congrArg (fun x => x.2.1) (Except.ok.inj (h.symm.trans hcheck))
    exact ⟨fun _ => hv, fun hne => absurd heq hne⟩
  · have hv := ((hgl.onlineCheck_of_ne h4 hid hd hrebuilt hbytes heq).mp ⟨g', report, h⟩).1
    exact ⟨fun hsame => absurd hsame heq, fun _ => hv⟩

/-- The content of a block is known by its content id and its block id. -/
def BlockInfo.content (e : BlockInfo) : ℕ × ℕ := (e.contId, e.blockId)

/-- Blocks of one content id and block id hold the same bytes. -/
theorem Loaded.tracks_content_iff {bs : ℕ} {e e' : BlockInfo} {bytes bytes' : List UInt8} (hg : Loaded g₀ info)
    (hbs : g₀.blockSize ≤ bs) (hsum : g₀.blockCounts.sum < 2 ^ 32) (h : Tracks g₀ bs e bytes)
    (h' : Tracks g₀ bs e' bytes') : bytes = bytes' ↔ e.content = e'.content := by
  obtain rfl : bs = g₀.blockSize := le_antisymm (h.blockSize_le hg) hbs
  obtain ⟨-, hcont, hid, hof⟩ := hg.of_tracks h
  obtain ⟨-, hcont', hid', hof'⟩ := hg.of_tracks h'
  have h8 : 8 ≤ g₀.blockSize := le_trans (by decide) hg.blockSize
  rw [BlockInfo.content, BlockInfo.content, Prod.mk.injEq]
  constructor
  · rintro rfl
    exact Generator.contentOf_injective h8 hcont hcont' hid hid' hof hof'
  · rintro ⟨hcc, hii⟩
    obtain ⟨g₁, g₁', d₁, b₁, r₁, b₁', hr₁, hn₁, he, -⟩ := h
    obtain ⟨g₂, g₂', d₂, b₂, r₂, b₂', hr₂, hn₂, he', -⟩ := h'
    have hid₁ : e.blockId = b₁'.blockId ∧ e.compressionIndex = b₁'.compressionIndex := by
      rw [he]
      exact ⟨rfl, rfl⟩
    have hid₂ : e'.blockId = b₂'.blockId ∧ e'.compressionIndex = b₂'.compressionIndex := by
      rw [he']
      exact ⟨rfl, rfl⟩
    have hci : e.compressionIndex = e'.compressionIndex := by
      rw [hid₁.2, hid₂.2]
      exact hg.compressionIndex_eq hsum hr₁ hn₁ hr₂ hn₂ (hid₁.1.symm.trans (hii.trans hid₂.1))
    rw [hcc, hii, hci] at hof
    exact Except.ok.inj (hof.symm.trans hof')

/-- A block of another content is found to be wrong, if its ids can be looked up. -/
theorem Loaded.onlineCheck_of_other {g : Generator} {bs : ℕ} {r e : BlockInfo} {buf : Buffer}
    {bytes tracked : List UInt8} {z : Bool} {d : CheckDraw} (hg : Loaded g₀ info)
    (hbs : g₀.blockSize ≤ bs) (hfirst : ZeroLineFirst g₀) (hsum : g₀.blockCounts.sum < 2 ^ 32)
    (hf : g.frame = g₀.frame) (hr : Tracks g₀ bs r bytes) (ht : Tracks g₀ bs e tracked)
    (hbytes : buf.bytes bs = .ok bytes) (hne : r.content ≠ e.content)
    (hd : g₀.drawn e.blockId d.expected ≠ uintMax) (hident : Identifiable g₀ info r.blockId d.found) :
    ∃ g' entries, onlineCheck g buf e bs z info d = .ok (g', 1, entries) := by
  have hdiffer : bytes ≠ tracked := fun h => hne ((hg.tracks_content_iff hbs hsum hr ht).mp h)
  obtain rfl : bs = g₀.blockSize := le_antisymm (hr.blockSize_le hg) hbs
  obtain ⟨-, -, hidr, hof⟩ := hg.of_tracks hr
  obtain ⟨h4, -, hid, -⟩ := hg.of_tracks ht
  have hrebuilt := hg.rebuilt_of_tracks hfirst hsum hf ht d.expected
  have h8 : 8 ≤ g₀.blockSize := le_trans (by decide) hg.blockSize
  rw [← word32_of_contentOf h8 hidr hbytes hof] at hident
  have hgbs := Generator.blockSize_of_frame hf
  rw [← hgbs] at h4 hbytes ⊢
  rw [← Generator.drawn_of_frame hf] at hd
  exact ((hg.of_frame hf).onlineCheck_of_ne h4 hid hd hrebuilt hbytes hdiffer).mpr ⟨rfl, hident.of_frame hf⟩

/-- In a distribution whose only line without copies is the first, a check finds no error if the write that the
block read is from left the content of the tracker entry. -/
theorem Checked.agrees_iff {c : Checked} {bytes tracked : List UInt8} (hg : Loaded g₀ info)
    (hfirst : ZeroLineFirst g₀) (hsum : g₀.blockCounts.sum < 2 ^ 32) (hr : Tracks g₀ g₀.blockSize c.read bytes)
    (ht : Tracks g₀ g₀.blockSize c.tracked tracked) : c.Agrees g₀ ↔ c.read.content = c.tracked.content := by
  rw [← hg.tracks_content_iff le_rfl hsum hr ht, Checked.Agrees, (hg.of_tracks hr).2.2.2,
    hg.rebuilt_of_tracks hfirst hsum rfl ht, Except.ok.injEq]

/-! ### The invariant -/

/-- What holds of a check that was made: both entries are of blocks that were written, and the result says
whether the one built again is the one read. -/
structure Checked.Right (g₀ : Generator) (bs : ℕ) (c : Checked) : Prop where
  read : ∃ bytes, Tracks g₀ bs c.read bytes
  tracked : ∃ bytes, Tracks g₀ bs c.tracked bytes
  of_agrees : c.Agrees g₀ → c.res = 0
  of_disagrees : ¬ c.Agrees g₀ → c.res = 1

/-- The invariant of writer and reader `p`.  Every block is as its last write says, and that is what its tracker
entry says too, unless the write has not been tracked; a block that was read is as the write it is from says. -/
structure MixedInv (g₀ : Generator) (conf : Conf) (p : ℕ) (m : Mixed) : Prop where
  writers : ∀ q, Generator.Reach g₀ (m.sys.procs q).gen
  reader : m.reader.gen.frame = g₀.frame
  buf : m.reader.buf.size = conf.blockSize
  disk : ∀ k < conf.totblocks,
    Tracks g₀ conf.blockSize (m.lastWrite k)
      (read (m.sys.files (conf.fileOf p)).byte (k * conf.blockSize) conf.blockSize) ∧
    k * conf.blockSize + conf.blockSize ≤ (m.sys.files (conf.fileOf p)).size
  tracker : ∀ k < conf.totblocks, ∃ e bytes, m.sys.shared.contentTracker conf (conf.pos p) k = .ok e ∧
    Tracks g₀ conf.blockSize e bytes ∧ (e = m.lastWrite k ∨ m.written = some (k * conf.blockSize, m.lastWrite k))
  written : ∀ off e, m.written = some (off, e) → ∃ k < conf.totblocks, off = k * conf.blockSize ∧ e = m.lastWrite k
  fetched : ∀ off e, m.reader.fetched = some (off, e) → ∃ k < conf.totblocks, ∃ bytes, off = k * conf.blockSize ∧
    m.reader.buf.bytes conf.blockSize = .ok bytes ∧ Tracks g₀ conf.blockSize e bytes
  results : ∀ c ∈ m.results, c.Right g₀ conf.blockSize

/-- What the first step of the writer does. -/
theorem writerPwrite_eq_ok {w : WriteStep} {off : ℕ} {e : BlockInfo} (hw : w.idproc < conf.nprocs)
    (hr : ∀ q, Generator.Reach g₀ (s.procs q).gen) (h : writerPwrite conf info s w = .ok (s', off, e)) :
    ∃ k < conf.totblocks, ∃ content, off = k * conf.blockSize ∧ Tracks g₀ conf.blockSize e content ∧
      s'.files = Function.update s.files (conf.fileOf w.idproc)
        ((s.files (conf.fileOf w.idproc)).pwrite content off) ∧
      s'.shared.contentMap = s.shared.contentMap ∧ ∀ q, Generator.Reach g₀ (s'.procs q).gen := by
  unfold writerPwrite at h
  simp only [bind_eq_ok] at h
  obtain ⟨⟨gen, buf, b⟩, hwrite, ⟨off', rest⟩, hoff, ⟨q, shared⟩, hcount, accesses, -, content, hc, h⟩ := h
  cases h
  obtain ⟨k, hk, rfl⟩ := getIoposition_block hw hoff
  obtain ⟨hreach, ht⟩ := getWritecontent_tracks (hr w.idproc) hwrite hc
  obtain ⟨hmap, hgen⟩ := processCount_frame hcount
  refine ⟨k, hk, content, rfl, ht, rfl, hmap, fun q' => ?_⟩
  show Generator.Reach g₀ (Function.update s.procs w.idproc _ q').gen
  by_cases hq : q' = w.idproc
  · rw [hq, Function.update_self]
    exact hgen ▸ hreach
  · rw [Function.update_of_ne hq]
    exact hr q'

/-- A block is written to the file of `p`, and not tracked yet. -/
theorem MixedInv.pwrite {w : WriteStep} {off : ℕ} {e : BlockInfo} (hp : p < conf.writers)
    (hm : MixedInv g₀ conf p m) (hidle : m.written = none) (hw : w.idproc = p)
    (h : writerPwrite conf info m.sys w = .ok (s, off, e)) :
    MixedInv g₀ conf p { m with
      sys := s
      lastWrite := Function.update m.lastWrite (off / conf.blockSize) e
      written := some (off, e) } := by
  obtain ⟨k, hk, content, rfl, ht, hfiles, hmap, hreach⟩ :=
    writerPwrite_eq_ok (by rw [hw]; exact hp.trans_le conf.writers_le) hm.writers h
  have hfile : s.files (conf.fileOf p) = (m.sys.files (conf.fileOf p)).pwrite content (k * conf.blockSize) := by
    rw [hfiles, hw, Function.update_self]
  rw [Nat.mul_div_cancel _ conf.blockSize_pos]
  refine ⟨hreach, hm.reader, hm.buf, ?_, ?_, ?_, hm.fetched, hm.results⟩
  · intro j hj
    simp only [hfile]
    rcases eq_or_ne j k with rfl | hne
    · obtain ⟨hread, hsize⟩ := File.read_pwrite_self (k := j) (f := m.sys.files (conf.fileOf p)) ht.length
      rw [Function.update_self, hread]
      exact ⟨ht, hsize⟩
    · obtain ⟨hread, hsize⟩ := File.read_pwrite_other (f := m.sys.files (conf.fileOf p)) ht.length hne.symm
      rw [Function.update_of_ne hne, hread]
      exact ⟨(hm.disk j hj).1, (hm.disk j hj).2.trans hsize⟩
  · intro j hj
    obtain ⟨e', bytes, he', ht', hlast⟩ := hm.tracker j hj
    refine ⟨e', bytes, ?_, ht', ?_⟩
    · rw [contentTracker_eq_ok] at he' ⊢
      rw [hmap]
      exact he'
    · rcases eq_or_ne j k with rfl | hne
      · exact .inr (by simp only [Function.update_self])
      · rw [hidle] at hlast
        simp only [Function.update_of_ne hne]
        exact .inl (hlast.resolve_right (by simp))
  · intro off e' heq
    cases heq
    refine ⟨k, hk, rfl, ?_⟩
    simp only [Function.update_self]

/-- The entry of the block that was written is made. -/
theorem MixedInv.track {off : ℕ} {e : BlockInfo} (hint : conf.integrity ≠ 0) (hm : MixedInv g₀ conf p m)
    (hwritten : m.written = some (off, e)) (h : writerTrack conf p m.sys off e = .ok s) :
    MixedInv g₀ conf p { m with sys := s, written := none } := by
  obtain ⟨k, hk, rfl, rfl⟩ := hm.written off e hwritten
  rw [writerTrack, bind_eq_ok] at h
  obtain ⟨shared, htrack, h⟩ := h
  cases h
  rw [Nat.mul_div_cancel _ conf.blockSize_pos] at htrack
  refine ⟨hm.writers, hm.reader, hm.buf, hm.disk, ?_, fun _ _ h => (by cases h), hm.fetched, hm.results⟩
  intro j hj
  rcases eq_or_ne j k with rfl | hne
  · exact ⟨m.lastWrite j, _, Shared.track_self hint htrack, (hm.disk j hj).1, .inl rfl⟩
  · obtain ⟨e', bytes, he', ht', hlast⟩ := hm.tracker j hj
    refine ⟨e', bytes, (Shared.track_other hk hj (fun hsame => hne hsame.2) htrack).trans he', ht', .inl ?_⟩
    refine hlast.resolve_right fun heq => ?_
    rw [hwritten, Option.some.injEq, Prod.mk.injEq] at heq
    exact hne (Nat.eq_of_mul_eq_mul_right conf.blockSize_pos heq.1.symm)

/-- A block is read. -/
theorem MixedInv.pread {raws rest acessesarray : List ℕ} {totOps off n : ℕ} {buf : Buffer} (hp : p < conf.nprocs)
    (hm : MixedInv g₀ conf p m) (hoff : getIoposition conf m.reader.totOps m.reader.cNurand p raws = .ok (off, rest))
    (h : (m.sys.files (conf.fileOf p)).pread m.reader.buf conf.blockSize off = (n, buf)) :
    MixedInv g₀ conf p { m with
      reader := { m.reader with
        acessesarray, buf, totOps, fetched := some (off, m.lastWrite (off / conf.blockSize)) } } := by
  obtain ⟨k, hk, rfl⟩ := getIoposition_block hp hoff
  obtain ⟨ht, hsize⟩ := hm.disk k hk
  obtain ⟨buf', hpread, hbuf, hbytes, -⟩ := File.pread_block hm.buf hsize
  cases h.symm.trans hpread
  refine ⟨hm.writers, hm.reader, hbuf, hm.disk, hm.tracker, hm.written, ?_, hm.results⟩
  intro off' e heq
  cases heq
  rw [Nat.mul_div_cancel _ conf.blockSize_pos]
  exact ⟨k, hk, _, rfl, hbytes, ht⟩

/-- A block that was read is checked. -/
theorem MixedInv.check {off : ℕ} {r e : BlockInfo} {d : CheckDraw} {gen : Generator} {v : ℤ}
    {report : List ReportEntry} (hg : Loaded g₀ info) (hbs : g₀.blockSize ≤ conf.blockSize)
    (hm : MixedInv g₀ conf p m) (hfetched : m.reader.fetched = some (off, r))
    (he : m.sys.shared.contentTracker conf (conf.pos p) (off / conf.blockSize) = .ok e)
    (h : onlineCheck m.reader.gen m.reader.buf e conf.blockSize false info d = .ok (gen, v, report)) :
    MixedInv g₀ conf p { m with
      reader := { m.reader with gen, fetched := none }
      results := m.results ++ [⟨r, e, d, v⟩] } := by
  obtain ⟨k, hk, bytes, rfl, hbytes, hr⟩ := hm.fetched off r hfetched
  rw [Nat.mul_div_cancel _ conf.blockSize_pos] at he
  obtain ⟨e', tracked, he', ht, -⟩ := hm.tracker k hk
  cases he.symm.trans he'
  have hres := hg.onlineCheck_res (c := ⟨r, e, d, v⟩) hbs hm.reader hr ht hbytes h
  refine ⟨hm.writers, (onlineCheck_frame h).trans hm.reader, hm.buf, hm.disk, hm.tracker, hm.written,
    fun _ _ h => (by cases h), ?_⟩
  intro c hc
  rcases List.mem_append.mp hc with hc | hc
  · exact hm.results c hc
  · rw [List.mem_singleton.mp hc]
    exact ⟨⟨_, hr⟩, ⟨_, ht⟩, hres.1, hres.2⟩

section Run

variable (hg : Loaded g₀ info) (hbs : g₀.blockSize ≤ conf.blockSize) (hint : conf.integrity ≠ 0)
  (hp : p < conf.writers)
include hg hbs hint hp

/-- **Every step keeps the invariant.** -/
theorem MixedStep.inv (hm : MixedInv g₀ conf p m) (h : MixedStep conf info p m m') : MixedInv g₀ conf p m' := by
  cases h with
  | pwrite hidle hw h => exact hm.pwrite hp hidle hw h
  | track hwritten h => exact hm.track hint hwritten h
  | pread hidle hoff hcount h => exact hm.pread (hp.trans_le conf.writers_le) hoff h
  | check hfetched he h => exact hm.check hg hbs hfetched he h

theorem MixedRun.inv (hm : MixedInv g₀ conf p m) (h : MixedRun conf info p m m') : MixedInv g₀ conf p m' := by
  induction h with
  | refl => exact hm
  | tail _ hstep ih => exact hstep.inv hg hbs hint hp ih

end Run

theorem Mixed.lastWrite_start {cNurand k : ℕ} {fresh : Mem} {e : BlockInfo}
    (h : s.shared.contentTracker conf (conf.pos p) k = .ok e) :
    (Mixed.start conf p s cNurand fresh).lastWrite k = e := by
  simp only [Mixed.start]
  rw [contentTracker_eq_ok.mp h]
  rfl

/-- A populated file starts with the invariant. -/
theorem RunInv.mixed {cNurand : ℕ} {fresh : Mem} (hp : p < conf.writers) (hs : RunInv g₀ conf s) :
    MixedInv g₀ conf p (.start conf p s cNurand fresh) := by
  have hstored := hs.stored (conf.pos p) (Conf.pos_lt hp)
  refine ⟨hs.procs, hs.parent.frame_eq, rfl, ?_, ?_, fun _ _ h => (by cases h), fun _ _ h => (by cases h), ?_⟩
  · intro k hk
    obtain ⟨e, content, he, ht, hread, hsize⟩ := hstored k hk
    rw [conf.fileOf_pos] at hread hsize
    rw [Mixed.lastWrite_start he]
    exact ⟨hread ▸ ht, hsize⟩
  · intro k hk
    obtain ⟨e, content, he, ht, -⟩ := hstored k hk
    exact ⟨e, content, he, ht, .inl (Mixed.lastWrite_start he).symm⟩
  · intro c hc
    cases hc

/-- **Exactly when an online check raises no error.**  Populate every file, or the device, and let a writer and a
reader of one file take their steps in any order.  An `online_check` returns `0` if and only if the block built
again from the tracker entry is the block that was read; where the only line without copies is the first, that
is when the entry in the tracker is of the same content as the entry of the write that the block read is from.
Such a check always comes back, unless it draws the content id that stands for an error. -/
theorem online_checks_exact {file : Option (List Char)} {ld : LoadDraws} {files : FileId → File}
    {old : ℕ → ℕ} {oldMap : ℕ → BlockInfo} {procs : ℕ → Proc} {pdraws : ℕ → ℕ → Generator.Draw}
    {raws : ℕ → List ℕ} {s₁ s₂ : Sys} {cNurand : ℕ} {fresh : Mem}
    (hload : initializeGenerator conf.generator file ld = .ok (g₀, some info, 1))
    (hdvd : conf.blockSize ∣ conf.filesize) (hint : 2 ≤ conf.integrity)
    (hpop : populate conf info pdraws ⟨files, loadmmap conf info old oldMap, g₀, procs⟩ = .ok s₁)
    (hlaunch : launch conf raws s₁ = .ok s₂) (hp : p < conf.writers)
    (hrun : MixedRun conf info p (.start conf p s₂ cNurand fresh) m) :
    (∀ c ∈ m.results, (c.res = 0 ↔ c.Agrees g₀) ∧
      (ZeroLineFirst g₀ → g₀.blockCounts.sum < 2 ^ 32 → (c.res = 0 ↔ c.read.content = c.tracked.content))) ∧
    (∀ off r, m.reader.fetched = some (off, r) →
      ∃ e, m.sys.shared.contentTracker conf (conf.pos p) (off / conf.blockSize) = .ok e ∧
        (ZeroLineFirst g₀ → g₀.blockCounts.sum < 2 ^ 32 → r.content = e.content →
          ∀ d, g₀.drawn e.blockId d.expected ≠ uintMax →
            ∃ gen, onlineCheck m.reader.gen m.reader.buf e conf.blockSize false info d = .ok (gen, 0, []))) := by
  obtain ⟨hg, hbs⟩ := loaded_of_initialize hload
  have hle : g₀.blockSize ≤ conf.blockSize := hbs.le.trans (Nat.mod_le _ _)
  have hint0 : conf.integrity ≠ 0 := by omega
  have hm := hrun.inv hg hle hint0 hp ((populate_runInv hint0 hdvd .refl hpop hlaunch).mixed hp)
  constructor
  · intro c hc
    obtain ⟨⟨bytes, hr⟩, ⟨tracked, ht⟩, hzero, hone⟩ := hm.results c hc
    have hres : c.res = 0 ↔ c.Agrees g₀ := by
      refine ⟨fun h => ?_, hzero⟩
      by_contra hne
      rw [hone hne] at h
      exact absurd h (by decide)
    refine ⟨hres, fun hfirst hsum => ?_⟩
    have hbs' : conf.blockSize = g₀.blockSize := le_antisymm (hr.blockSize_le hg) hle
    rw [hbs'] at hr ht
    rw [hres, Checked.agrees_iff hg hfirst hsum hr ht]
  · intro off r hfetched
    obtain ⟨k, hk, bytes, rfl, hbytes, hr⟩ := hm.fetched off r hfetched
    obtain ⟨e, tracked, he, ht, -⟩ := hm.tracker k hk
    rw [Nat.mul_div_cancel _ conf.blockSize_pos]
    refine ⟨e, he, fun hfirst hsum hcontent d hd => ?_⟩
    rw [(hg.tracks_content_iff hle hsum hr ht).mpr hcontent] at hbytes
    exact hg.onlineCheck_of_tracks hle hfirst hsum ht hm.reader hbytes (by
      rw [Generator.drawn_of_frame hm.reader]
      exact hd)

/-- Whenever a reader has an offset, it reads a block there. -/
theorem MixedStep.exists_pread (info : DuplicatesInfo) {raws rest acessesarray : List ℕ} {off : ℕ}
    (hidle : m.reader.fetched = none)
    (hoff : getIoposition conf m.reader.totOps m.reader.cNurand p raws = .ok (off, rest))
    (hcount : countAccess m.reader.acessesarray (off / conf.blockSize) = .ok acessesarray) :
    ∃ buf totOps, MixedStep conf info p m { m with
      reader := { m.reader with
        acessesarray, buf, totOps, fetched := some (off, m.lastWrite (off / conf.blockSize)) } } :=
  ⟨_, _, @MixedStep.pread _ _ _ _ _ _ _ true _ _ _ hidle hoff hcount rfl⟩

/-- A writer and a reader, with a file of sixteen blocks. -/
def pairedFile : Conf := { sampleConf 65536 2 50 twoFiles.blockSize_pos with mixedIO := true, integrity := 2 }

/-- A block is written again and its entry made before it is read: the check finds no error. -/
theorem pairedFile_undisturbed : ∃ g₀ info s₁ s₂ m,
    initializeGenerator pairedFile.generator (some plainDistribution) plainDraws = .ok (g₀, some info, 1) ∧
      populate pairedFile info (fun _ k => ⟨k, k, k⟩) (sampleSys pairedFile info g₀) = .ok s₁ ∧
      launch pairedFile (fun _ => []) s₁ = .ok s₂ ∧
      MixedRun pairedFile info 0 (.start pairedFile 0 s₂ 0 fun _ => 0) m ∧
      ((Mixed.start pairedFile 0 s₂ 0 fun _ => 0).lastWrite 0).content = (12, 1) ∧
      m.results.map (fun c => (c.read.content, c.tracked.content, c.res)) = [((11, 11), (11, 11), 0)] := by
  obtain ⟨g₀, info, h, hg⟩ := exists_of_loadsWith (x := initializeGenerator pairedFile.generator
    (some plainDistribution) plainDraws) (T := fun g info => g.blockCounts.sum = 12 ∧
      g.linhas.map Linha.nrCopies = [0, 1] ∧ firstZeroBlocks g.linhas = 8 ∧
      okWith (populate pairedFile info (fun _ k => ⟨k, k, k⟩) (sampleSys pairedFile info g)) fun s₁ =>
        okWith (launch pairedFile (fun _ => []) s₁) fun s₂ =>
          okWith (s₂.shared.contentTracker pairedFile 0 0) (fun e => e.content = (12, 1)) ∧
          okWith (writerPwrite pairedFile info s₂ ⟨0, ⟨1, 2, 9⟩, [], true⟩) fun x => x.2.1 = 0 ∧
            x.2.2.content = (11, 11) ∧
            okWith (writerTrack pairedFile 0 x.1 x.2.1 x.2.2) fun s₄ =>
              okWith (s₄.shared.contentTracker pairedFile 0 0) fun e => e.content = (11, 11)) (by decide +kernel)
  obtain ⟨hsum, hcopies, hzero, hrun⟩ := of_decide_eq_true hg
  obtain ⟨s₁, hpop, hrun⟩ := exists_of_okWith hrun
  obtain ⟨s₂, hlaunch, hrun⟩ := exists_of_okWith hrun
  obtain ⟨hold, hrun⟩ := of_decide_eq_true hrun
  obtain ⟨e₂, he₂, hold⟩ := exists_of_okWith hold
  obtain ⟨⟨s₃, off, r⟩, hwrite, hrun⟩ := exists_of_okWith hrun
  obtain ⟨rfl, hr, hrun⟩ := of_decide_eq_true hrun
  obtain ⟨s₄, htrack, hrun⟩ := exists_of_okWith hrun
  obtain ⟨e, he, hcontent⟩ := exists_of_okWith hrun
  have hcontent : e.content = (11, 11) := of_decide_eq_true hcontent
  have hid : e.blockId = 11 := congrArg Prod.snd hcontent
  have hfirst : ZeroLineFirst g₀ := .of_copies hcopies (by decide)
  -- the two steps of the writer, and then the two of the reader
  have hpwrite := MixedStep.pwrite (m := .start pairedFile 0 s₂ 0 fun _ => 0) rfl rfl hwrite
  have hwritten := (Relation.ReflTransGen.single hpwrite).tail (MixedStep.track rfl htrack)
  obtain ⟨buf, totOps, hread⟩ := MixedStep.exists_pread info (m := { Mixed.start pairedFile 0 s₂ 0 fun _ => 0 with
      sys := s₄, lastWrite := _, written := none }) rfl
    (show getIoposition pairedFile 0 0 0 [] = .ok (0, []) from rfl) rfl
  have hrun := hwritten.tail hread
  obtain ⟨e', he', hcheck⟩ := (online_checks_exact h (by decide) (by decide) hpop hlaunch (by decide) hrun).2 0 _ rfl
  cases he.symm.trans he'
  obtain ⟨gen, hcheck⟩ := hcheck hfirst (by omega) (hr.trans hcontent.symm) ⟨0, 0⟩ (by
    rw [hid, Generator.drawn, hzero, if_neg (by decide)]
    decide)
  refine ⟨g₀, info, s₁, s₂, _, h, hpop, hlaunch, hrun.tail (MixedStep.check rfl he hcheck), ?_, ?_⟩
  · rw [Mixed.lastWrite_start he₂]
    exact of_decide_eq_true hold
  · exact congrArg₂ (fun x y => [(x, y, 0)]) hr hcontent

/-- A block is read and checked after it was written and before its entry is made: a false error. -/
theorem pairedFile_falseError : ∃ g₀ info s₁ s₂ m,
    initializeGenerator pairedFile.generator (some plainDistribution) plainDraws = .ok (g₀, some info, 1) ∧
      ZeroLineFirst g₀ ∧
      populate pairedFile info (fun _ k => ⟨k, k, k⟩) (sampleSys pairedFile info g₀) = .ok s₁ ∧
      launch pairedFile (fun _ => []) s₁ = .ok s₂ ∧
      MixedRun pairedFile info 0 (.start pairedFile 0 s₂ 0 fun _ => 0) m ∧ m.results.map Checked.res = [1] := by
  obtain ⟨g₀, info, h, hg⟩ := exists_of_loadsWith (x := initializeGenerator pairedFile.generator
    (some plainDistribution) plainDraws) (T := fun g info => g.blockCounts.sum = 12 ∧
      g.linhas.map Linha.nrCopies = [0, 1] ∧ g.totalUniqueBlocks = 12 ∧ firstZeroBlocks g.linhas = 8 ∧
      g.linhas.all (fun l => l.compression.length = 10) ∧
      okWith (populate pairedFile info (fun _ k => ⟨k, k, k⟩) (sampleSys pairedFile info g)) fun s₁ =>
        okWith (launch pairedFile (fun _ => []) s₁) fun s₂ =>
          okWith (writerPwrite pairedFile info s₂ ⟨0, ⟨1, 2, 9⟩, [], true⟩) fun x => x.2.1 = 0 ∧
            x.2.2.content = (11, 11) ∧
            okWith (x.1.shared.contentTracker pairedFile 0 0) fun e => e.content = (12, 1)) (by decide +kernel)
  obtain ⟨hsum, hcopies, htotal, hzero, hten, hrun⟩ := of_decide_eq_true hg
  obtain ⟨s₁, hpop, hrun⟩ := exists_of_okWith hrun
  obtain ⟨s₂, hlaunch, hrun⟩ := exists_of_okWith hrun
  obtain ⟨⟨s₃, off, r⟩, hwrite, hrun⟩ := exists_of_okWith hrun
  obtain ⟨rfl, hr, hrun⟩ := of_decide_eq_true hrun
  obtain ⟨e, he, hcontent⟩ := exists_of_okWith hrun
  have hcontent : e.content = (12, 1) := of_decide_eq_true hcontent
  have hfirst : ZeroLineFirst g₀ := .of_copies hcopies (by decide)
  obtain ⟨hl, hbs⟩ := loaded_of_initialize h
  have hle : g₀.blockSize ≤ pairedFile.blockSize := hbs.le
  -- the block is written, and read before its entry is made
  have hpwrite := MixedStep.pwrite (m := .start pairedFile 0 s₂ 0 fun _ => 0) rfl rfl hwrite
  obtain ⟨buf, totOps, hpread⟩ := MixedStep.exists_pread info (m := { Mixed.start pairedFile 0 s₂ 0 fun _ => 0 with
      sys := s₃, lastWrite := _, written := some (0, r) }) rfl
    (show getIoposition pairedFile 0 0 0 [] = .ok (0, []) from rfl) rfl
  have hrun := (Relation.ReflTransGen.single hpwrite).tail hpread
  have hm := MixedRun.inv hl hle (by decide) (by decide)
    ((populate_runInv (by decide) (by decide) .refl hpop hlaunch).mixed (by decide)) hrun
  obtain ⟨k, hk, bytes, hoff, hbytes, hrt⟩ := hm.fetched 0 r rfl
  obtain ⟨e', tracked, he', het, -⟩ := hm.tracker 0 (by decide)
  cases he.symm.trans he'
  have hident : Identifiable g₀ info r.blockId 0 := by
    have hid : r.blockId = 11 := congrArg Prod.snd hr
    refine (hl.identifiable_iff (fun l hmem => of_decide_eq_true (List.all_eq_true.mp hten l hmem))
      (by omega)).mpr (.inr ⟨by omega, ?_⟩)
    rw [hid, Generator.drawn, hzero, if_neg (by decide)]
    decide
  obtain ⟨gen, entries, hcheck⟩ := hl.onlineCheck_of_other (z := false) (d := ⟨0, 0⟩) hle hfirst (by omega)
    hm.reader hrt het hbytes (by rw [hr, hcontent]; decide) (by
      have hid : e.blockId = 1 := congrArg Prod.snd hcontent
      rw [Generator.drawn, htotal, hid, Nat.zero_mod]
      unfold uintMax
      split <;> omega) hident
  exact ⟨g₀, info, s₁, s₂, _, h, hfirst, hpop, hlaunch, hrun.tail (MixedStep.check rfl he hcheck), rfl⟩

end Dedisbench
