import Dedisbench.Bench.Defs
import Dedisbench.Generator.Dedup

/-!
# The integrity checker

`benchcore/integrity/integrity.c`: every block read back is compared with the block that its tracker
entry describes, built again by `getBlockContent`.  When they differ, `checkBlockContent` takes the
first eight bytes of the block read for ids and tries to build that block, only to word the report.

`onlineCheck_of_match` and `onlineCheck_of_mismatch` say what the checker does with a block that is,
or is not, the one it has built.
-/

namespace Dedisbench

open ByteMem ExceptRun

/-- An entry of the integrity report. -/
inductive ReportEntry where
  /-- the content read is not the last one written, but well built -/
  | mismatch (contId : ℕ)
  /-- a block with errors -/
  | error (contId : ℕ)
  /-- a block that could not be read -/
  | unread (offset : ℕ)
  deriving DecidableEq

/-! ### Building a block again -/

/-- `get_block_content`: the block a tracker entry describes.  The content id of a block without
copies is random, so the old one is put back. -/
def getBlockContent (g : Generator) (infoWrite : BlockInfo) (raw : ℕ) : Exec (Generator × ModelRef) := do
  let (g, bufaux, resGen) ← g.generateData infoWrite.blockId infoWrite.compressionIndex raw
  if resGen = -1 then .error .exit
  else if infoWrite.flagUniqueBlock = 1 then do
    let b ← g.modelAt bufaux
    let b ← b.memcpy 0 4 (le32 infoWrite.contId)
    .ok (g.setModel bufaux b, bufaux)
  else .ok (g, bufaux)

/-- The tracker entry that `check_block_content` makes up for the ids it finds in a block. -/
def headerInfo (contId blockId compressionIndex : ℕ) : BlockInfo where
  contId := contId
  procId := 2 ^ 64 - 1
  blockId := blockId
  compressionIndex := compressionIndex
  flagUniqueBlock := if contId ≠ blockId then 1 else 0

/-- `check_block_content`: whether the block read is the one its first eight bytes describe; `0` if it
is, as `memcmp`, and `-1` if they are no ids. -/
def checkBlockContent (g : Generator) (buf : Buffer) (blockSize : ℕ) (info : DuplicatesInfo) (raw : ℕ) :
    Exec (Generator × ℤ) := do
  let _ ← buf.bytes 8
  let contId := word32 buf.byte 0
  let blockId := word32 buf.byte 4
  if info.zeroCopyBlocks + info.duplicatedBlocks ≤ blockId then .ok (g, -1)
  else do
    let compression ← g.getBlockCompressionById (toInt32 blockId)
    -- the index is an `unsigned int`
    let compressionIndex := ofInt32 compression
    if compressionIndex = uintMax then .error .exit
    else do
      let (g, newBuffer) ← getBlockContent g (headerInfo contId blockId (compressionIndex / 10)) raw
      let content ← g.contentAt newBuffer blockSize
      let bytes ← buf.bytes blockSize
      .ok (g, memcmp bytes content)

/-- The raw draws of one `online_check`: for the block it expects and for the block it finds. -/
structure CheckDraw where
  expected : ℕ
  found : ℕ

/-- `online_check`: `1` if the block has errors, `0` if not. -/
def onlineCheck (g : Generator) (buf : Buffer) (infowrite : BlockInfo) (blockSize : ℕ) (finalCheck : Bool)
    (info : DuplicatesInfo) (d : CheckDraw) : Exec (Generator × ℤ × List ReportEntry) := do
  let (g, bufaux) ← getBlockContent g infowrite d.expected
  let content ← g.contentAt bufaux blockSize
  let bytes ← buf.bytes blockSize
  if memcmp bytes content ≠ 0 then do
    let (g, i) ← checkBlockContent g buf blockSize info d.found
    if i = 0 ∧ finalCheck = false then .ok (g, 1, [.mismatch infowrite.contId])
    else .ok (g, 1, [.error infowrite.contId])
  else .ok (g, 0, [])

/-! ### Checking a file -/

/-- The variables of the loop of `file_integrity`, with the report. -/
structure CheckState where
  gen : Generator
  buf : Buffer
  res : ℤ
  report : List ReportEntry

/-- One round of `file_integrity`. -/
def checkBlock (conf : Conf) (info : DuplicatesInfo) (sh : Shared) (f : File) (idproc : ℕ)
    (draws : ℕ → CheckDraw) (c : CheckState) (k : ℕ) : Exec CheckState := do
  let (n, buf) := f.pread c.buf conf.blockSize (k * conf.blockSize)
  if n = 0 then do
    let res ← cInt (c.res + 1)
    .ok { c with buf, res, report := c.report ++ [.unread (k * conf.blockSize)] }
  else do
    let infowrite ← sh.contentTracker conf idproc k
    let (gen, i, entries) ← onlineCheck c.gen buf infowrite conf.blockSize true info (draws k)
    let res ← cInt (c.res + i)
    .ok { gen, buf, res, report := c.report ++ entries }

/-- `file_integrity`: the number of blocks with errors.  `fresh` is what `malloc` returns. -/
def fileIntegrity (conf : Conf) (info : DuplicatesInfo) (sh : Shared) (f : File) (idproc : ℕ)
    (draws : ℕ → CheckDraw) (fresh : Mem) (g : Generator) : Exec CheckState :=
  (List.range conf.rounds).foldlM (checkBlock conf info sh f idproc draws) ⟨g, ⟨conf.blockSize, fresh⟩, 0, []⟩

/-- `static_check`: the generator, the number of errors in all files, and the report. -/
def staticCheck (conf : Conf) (info : DuplicatesInfo) (draws : ℕ → ℕ → CheckDraw) (fresh : ℕ → Mem)
    (s : Sys) : Exec (Generator × ℤ × List ReportEntry) :=
  conf.populated.foldlM (fun (g, errors, report) i => do
    let c ← fileIntegrity conf info s.shared (s.files (conf.fileOf i)) i (draws i) (fresh i) g
    let errors ← cInt (errors + c.res)
    .ok (c.gen, errors, report ++ c.report)) (s.gen, 0, [])

end Dedisbench
