import Dedisbench.Bench.IoDist
import Dedisbench.Generator.Load

/-!
# The benchmark

What is written where: the files, the memory the processes share (the statistics and the content
tracker), population (`realPopulate`) and the write branch of `process_run` (`processWrite`).  The
processes share the files and the tracker; each has its own copy of the generator, forked from the
one that populated the files.

The storage is ideal: a `pwrite` writes the whole block, and a `pread` returns what was last written.
-/

namespace Dedisbench

open ByteMem ExceptRun

/-! ### Files -/

/-- A file, or a device. -/
structure File where
  size : ℕ
  byte : Mem

/-- `pwrite` -/
def File.pwrite (f : File) (l : List UInt8) (off : ℕ) : File where
  size := max f.size (off + l.length)
  byte := write f.byte off l.length (ofList l)

/-- `pread` of `len` bytes into `buf`: how many it read, and the buffer. -/
def File.pread (f : File) (buf : Buffer) (len off : ℕ) : ℕ × Buffer :=
  let n := min len (f.size - off)
  (n, { buf with byte := write buf.byte 0 n fun i => f.byte (off + i) })

/-- Which file: the one of a process, or the raw device. -/
inductive FileId where
  | pfile (procid : ℕ)
  | rawdev
  deriving DecidableEq

/-! ### Shared memory -/

/-- The shared memory.  `statistics` is one counter for each block with copies and, right behind
them, `zerodups`; `contentMap` is what the rows of the content tracker point into.  In the code the one lies right
behind the other, so that a counter past `zerodups` is part of an entry; here such an increment is undefined. -/
structure Shared where
  statistics : List ℕ
  contentMap : List BlockInfo

/-- The number of writing processes, which is also the number of their files. -/
def Conf.writers (conf : Conf) : ℕ := if conf.mixedIO then conf.nprocs / 2 else conf.nprocs

/-- The number of rows of the content tracker. -/
def Conf.trackerRows (conf : Conf) : ℕ := if conf.rawdevice then 1 else conf.writers

/-- The file and the row of the content tracker of a process. -/
def Conf.fileOf (conf : Conf) (idproc : ℕ) : FileId := if conf.rawdevice then .rawdev else .pfile idproc

def Conf.pos (conf : Conf) (idproc : ℕ) : ℕ := if conf.rawdevice then 0 else idproc

/-- `loadmmap`: the memory as an earlier run left it, with `zerodups` set to zero. -/
def loadmmap (conf : Conf) (info : DuplicatesInfo) (old : ℕ → ℕ) (oldMap : ℕ → BlockInfo) : Shared where
  statistics := (List.range info.duplicatedBlocks).map old ++ [0]
  contentMap := (List.range (conf.totblocks * conf.trackerRows)).map oldMap

/-- `statistics[i]++`, and the new value. -/
def Shared.count (sh : Shared) (i : ℕ) : Exec (Shared × ℕ) :=
  match sh.statistics[i]? with
  | some n => .ok ({ sh with statistics := sh.statistics.set i (u64 (n + 1)) }, u64 (n + 1))
  | none => .error .undefined

/-- `content_tracker[row][blk]` -/
def Shared.contentTracker (conf : Conf) (sh : Shared) (row blk : ℕ) : Exec BlockInfo :=
  match sh.contentMap[row * conf.totblocks + blk]? with
  | some e => .ok e
  | none => .error .undefined

/-- The assignments to `content_tracker[row][blk]`, made if integrity is checked at all. -/
def Shared.track (conf : Conf) (sh : Shared) (row blk : ℕ) (infoWrite : BlockInfo) : Exec Shared :=
  if conf.integrity = 0 then .ok sh
  else if row * conf.totblocks + blk < sh.contentMap.length then
    .ok { sh with contentMap := sh.contentMap.set (row * conf.totblocks + blk) infoWrite }
  else .error .undefined

/-! ### The state of a run -/

/-- A writing process. -/
structure Proc where
  gen : Generator
  totOps : ℕ
  /-- unique blocks written, counting one copy of each duplicated block -/
  uni : ℕ
  /-- duplicated blocks written -/
  dupl : ℕ
  cNurand : ℕ
  acessesarray : List ℕ

/-- The state of a run: what is shared, the generator of the parent, and the writing processes. -/
structure Sys where
  files : FileId → File
  shared : Shared
  gen : Generator
  procs : ℕ → Proc

/-- `get_writecontent` -/
def getWritecontent (g : Generator) (idproc : ℕ) (d : Generator.Draw) : Exec (Generator × ModelRef × BlockInfo) := do
  let (g, buf, infoWrite) ← g.nextBlock d ⟨0, 0, 0, 0, 0⟩
  .ok (g, buf, { infoWrite with procId := idproc })

/-- The block is written to its file and entered in the tracker. -/
def Sys.store (conf : Conf) (s : Sys) (idproc iooffset : ℕ) (content : List UInt8) (infoWrite : BlockInfo) :
    Exec Sys := do
  let fd := conf.fileOf idproc
  let shared ← s.shared.track conf (conf.pos idproc) (iooffset / conf.blockSize) infoWrite
  .ok { s with files := Function.update s.files fd ((s.files fd).pwrite content iooffset), shared }

/-! ### Population -/

/-- The rounds of a loop over a file in steps of a block. -/
def Conf.rounds (conf : Conf) : ℕ := (conf.filesize + conf.blockSize - 1) / conf.blockSize

/-- `indexID` of `real_populate`. -/
def indexId (info : DuplicatesInfo) (b : BlockInfo) : ℕ := u64 (b.contId + 2 ^ 64 - info.zeroCopyBlocks)

/-- What `real_populate` counts: the blocks with copies. -/
def populateCount (conf : Conf) (info : DuplicatesInfo) (sh : Shared) (infoWrite : BlockInfo) : Exec Shared :=
  if conf.distout && infoWrite.flagUniqueBlock = 0 then do
    let (sh, _) ← sh.count (indexId info infoWrite)
    .ok sh
  else .ok sh

/-- One round of `real_populate`. -/
def populateBlock (conf : Conf) (info : DuplicatesInfo) (idproc : ℕ) (draws : ℕ → Generator.Draw) (s : Sys)
    (k : ℕ) : Exec Sys := do
  let (gen, buf, infoWrite) ← getWritecontent s.gen idproc (draws k)
  let shared ← populateCount conf info s.shared infoWrite
  let content ← gen.contentAt buf conf.blockSize
  { s with gen, shared }.store conf idproc (k * conf.blockSize) content infoWrite

/-- `real_populate` -/
def realPopulate (conf : Conf) (info : DuplicatesInfo) (idproc : ℕ) (draws : ℕ → Generator.Draw) (s : Sys) :
    Exec Sys :=
  (List.range conf.rounds).foldlM (populateBlock conf info idproc draws) s

/-- The files `populate` fills, by the process they are filled for: one of each writer, or the device. -/
def Conf.populated (conf : Conf) : List ℕ := List.range conf.trackerRows

/-- `populate` with realistic content; the draws are by file and block. -/
def populate (conf : Conf) (info : DuplicatesInfo) (draws : ℕ → ℕ → Generator.Draw) (s : Sys) : Exec Sys :=
  conf.populated.foldlM (fun s i => realPopulate conf info i (draws i) s) s

/-! ### Writing -/

/-- `launch_benchmark`: every process starts with a copy of the parent's generator. -/
def launch (conf : Conf) (raws : ℕ → List ℕ) (s : Sys) : Exec Sys := do
  let cs ← (List.range conf.writers).mapM fun i => initIoposition conf (raws i)
  .ok { s with procs := fun i =>
    { gen := s.gen, totOps := 0, uni := 0, dupl := 0, cNurand := (cs[i]?.map Prod.fst).getD 0,
      acessesarray := List.replicate conf.totblocks 0 } }

/-- A write of a process: which one, its draws, and whether the ramp-up is over. -/
structure WriteStep where
  idproc : ℕ
  draw : Generator.Draw
  raws : List ℕ
  measured : Bool

/-- `statistics_index` of `process_run`, an `int`. -/
def statisticsIndex (info : DuplicatesInfo) (b : BlockInfo) : ℤ :=
  toInt32 (u64 (info.zeroCopyBlocks + 2 ^ 64 - b.blockId))

/-- The accounting of `process_run` for one block. -/
def processCount (conf : Conf) (info : DuplicatesInfo) (p : Proc) (sh : Shared) (infoWrite : BlockInfo) :
    Exec (Proc × Shared) :=
  if conf.distout = false then .ok (p, sh)
  else if infoWrite.flagUniqueBlock = 0 then
    if statisticsIndex info infoWrite < 0 then .error .undefined
    else do
      let (sh, n) ← sh.count (statisticsIndex info infoWrite).toNat
      if 1 < n then .ok ({ p with dupl := u64 (p.dupl + 1) }, sh) else .ok ({ p with uni := u64 (p.uni + 1) }, sh)
  else do
    let (sh, _) ← sh.count info.duplicatedBlocks
    .ok ({ p with uni := u64 (p.uni + 1) }, sh)

/-- `acessesarray[blk]++` -/
def countAccess (accesses : List ℕ) (blk : ℕ) : Exec (List ℕ) :=
  match accesses[blk]? with
  | some n => .ok (accesses.set blk (u64 (n + 1)))
  | none => .error .undefined

/-- The write branch of `process_run`. -/
def processWrite (conf : Conf) (info : DuplicatesInfo) (s : Sys) (w : WriteStep) : Exec Sys := do
  let p := s.procs w.idproc
  -- `write_request`
  let (gen, buf, infoWrite) ← getWritecontent p.gen w.idproc w.draw
  let (iooffset, _) ← getIoposition conf p.totOps p.cNurand w.idproc w.raws
  let (p, shared) ← processCount conf info { p with gen } s.shared infoWrite
  let acessesarray ← countAccess p.acessesarray (iooffset / conf.blockSize)
  let content ← gen.contentAt buf conf.blockSize
  let s ← { s with shared }.store conf w.idproc iooffset content infoWrite
  let p := { p with acessesarray, totOps := if w.measured then u64 (p.totOps + 1) else p.totOps }
  .ok { s with procs := Function.update s.procs w.idproc p }

/-- The writes of a run, in the order in which they happen. -/
def processRun (conf : Conf) (info : DuplicatesInfo) (steps : List WriteStep) (s : Sys) : Exec Sys :=
  steps.foldlM (processWrite conf info) s

end Dedisbench
