import Dedisbench.Machine

/-!
# The block generator

`libGenerator/generator.cpp` after it has been loaded: the lines of the distribution, the models
and the two directions between a block id and a compression index.  The writer goes from a random
line to an id (`nextBlock`), the integrity checker from an id back to its line
(`getBlockCompressionById`); both hand out a model buffer that `generateData` stamps in place with
the content id and the block id.

A random draw is an arbitrary natural number, brought into its range by `uniformInt`.
-/

namespace Dedisbench

open ByteMem

/-- A line of the distribution file: blocks with `nrCopies` copies, their number, the id before
their first one, and the share of each compression class. -/
structure Linha (F : Type) where
  nrCopies : ℕ
  nrBlocks : ℕ
  nrBase : ℕ
  compression : List F

/-- What `nextBlock` says about a block. -/
structure BlockInfo where
  contId : ℕ
  procId : ℕ
  blockId : ℕ
  compressionIndex : ℕ
  /-- `1` for a block without copies, `0` for one with copies -/
  flagUniqueBlock : ℕ
  deriving DecidableEq

/-- The state of a `Generator`.  `modelos` holds the model buffers themselves, by model and
compression index; `atribuicao` is `atribuicao_blocos_unicos_para_modelos`. -/
structure Generator where
  blockSize : ℕ
  blocosAGerar : ℕ
  percentageUniqueBlocksAnalyze : ℕ
  percentagemCompressaoEntreBlocos : ℕ
  zeroCopiesBlocks : ℕ
  totalUniqueBlocks : ℕ
  compressionsInterBlocksInterval : ℤ × ℤ
  linhas : List (Linha Float)
  weights : List Float
  modelos : List (List Buffer)
  atribuicao : List ℕ

/-- A pointer to a model buffer: its model and its compression index. -/
structure ModelRef where
  indice : ℕ
  compression : ℕ
  deriving DecidableEq

/-! ### Compression indices -/

/-- The loop of `giveMyCompression` with `n` of its ten rounds left. -/
def compressionLoop {F : Type} [Arith F] (compression : List F) (myPercent : F) : ℕ → F → Exec ℕ
  | 0, _ => .ok 9
  | n + 1, aux => do
    let i := 9 - n
    let c ← vecAt compression i
    let aux := Arith.add aux c
    if Arith.le myPercent aux then .ok i else compressionLoop compression myPercent n aux

/-- `giveMyCompression`: the compression index of the block at a position of a line. -/
def giveMyCompression {F : Type} [Arith F] (linhaAleatoria : Linha F) (randomBlockID : ℕ) : Exec ℕ :=
  let myPercent := Arith.mul (Arith.div (Arith.ofNat randomBlockID) (Arith.ofNat linhaAleatoria.nrBlocks))
    (Arith.ofNat 100)
  compressionLoop linhaAleatoria.compression myPercent 10 (Arith.ofNat 0)

/-- Whether `getBlockCompressionById` takes a line to be the one of the block; the three values
are `int`s. -/
def Linha.hasId {F : Type} (l : Linha F) (blockId : ℤ) : Bool :=
  toInt32 (l.nrBase + 1) ≤ blockId && blockId ≤ toInt32 (l.nrBase + l.nrBlocks)

/-- The search of `getBlockCompressionById` over the lines: ten times the compression index of the
block, or `-1`. -/
def compressionById {F : Type} [Arith F] : List (Linha F) → ℤ → Exec ℤ
  | [], _ => .ok (-1)
  | l :: ls, blockId =>
    if l.hasId blockId then do
      let idLine := toInt32 (ofInt32 (blockId - l.nrBase))
      let x ← giveMyCompression l (ofInt32 idLine)
      .ok (x * 10)
    else compressionById ls blockId

namespace Generator

variable (g : Generator)

/-- `get_block_compression_by_id` -/
def getBlockCompressionById (blockId : ℤ) : Exec ℤ := compressionById g.linhas blockId

/-! ### Models -/

/-- The loop of `get_model_by_id_and_compression`: `rest` is what follows index `indice` in the
assignment, `somatorio` the sum of the entries up to it. -/
def modelLoop (blockId : ℕ) : List ℕ → ℕ → ℕ → Exec ℕ
  | rest, indice, somatorio =>
    if blockId ≤ somatorio then .ok indice
    else match rest with
      | [] => .error .exception
      | a :: rest => modelLoop blockId rest (indice + 1) (u32 (somatorio + a))

/-- The buffer a pointer points to. -/
def modelAt (r : ModelRef) : Exec Buffer := do
  let modelo ← vecAt g.modelos r.indice
  vecAt modelo r.compression

/-- The first `n` bytes of the buffer a pointer points to. -/
def contentAt (r : ModelRef) (n : ℕ) : Exec (List UInt8) := do
  let b ← g.modelAt r
  b.bytes n

/-- `get_model_by_id_and_compression` -/
def getModelByIdAndCompression (blockId compression : ℕ) : Exec ModelRef :=
  match g.atribuicao with
  | [] => .error .exception
  | a :: rest => do
    let indice ← modelLoop blockId rest 0 a
    let _ ← g.modelAt ⟨indice, compression⟩
    .ok ⟨indice, compression⟩

/-- The model buffers after a change to one of them. -/
def setModel (r : ModelRef) (b : Buffer) : Generator :=
  { g with modelos := g.modelos.modify r.indice fun modelo => modelo.set r.compression b }

/-- Whether `generateData` draws a content id for a block: the first line without copies decides,
by its number of blocks. -/
def randomises (blockId : ℕ) : Bool :=
  match g.linhas.find? fun l => l.nrCopies == 0 with
  | some l => blockId < l.nrBlocks
  | none => false

/-- The content id `generateData` puts in a block. -/
def drawContent (blockId raw : ℕ) : Exec ℕ :=
  if g.randomises blockId then uniformInt g.totalUniqueBlocks uintMax raw else .ok blockId

/-- `generate_data`: the model of the block, stamped in place with its content id and its id.  The
content id is also its result, as an `int`. -/
def generateData (blockId compression raw : ℕ) : Exec (Generator × ModelRef × ℤ) := do
  let bufferModelo ← g.getModelByIdAndCompression blockId compression
  let contentId ← g.drawContent blockId raw
  let b ← g.modelAt bufferModelo
  let b ← b.memcpy 0 4 (le32 contentId)
  let b ← b.memcpy 4 4 (le32 blockId)
  .ok (g.setModel bufferModelo b, bufferModelo, toInt32 contentId)

/-! ### The next block -/

/-- The raw draws of one `nextBlock`: the line, the position in it, the content id. -/
structure Draw where
  line : ℕ
  pos : ℕ
  content : ℕ

/-- `getLinha`: the distribution draws an index of its weights. -/
def getLinha (raw : ℕ) : Exec (Linha Float) := vecAt g.linhas (raw % g.weights.length)

/-- `getRandomBlockFromLine` -/
def getRandomBlockFromLine {F : Type} (l : Linha F) (raw : ℕ) : Exec ℕ := uniformInt 1 l.nrBlocks raw

/-- `nextBlock`: the block's buffer and its description; `proc_id` is left as it is. -/
def nextBlock (d : Draw) (infoWrite : BlockInfo) : Exec (Generator × ModelRef × BlockInfo) := do
  let linhaAleatoria ← g.getLinha d.line
  let randomBlockIdLine ← getRandomBlockFromLine linhaAleatoria d.pos
  let compressionIndex ← giveMyCompression linhaAleatoria randomBlockIdLine
  let blockId := u32 (randomBlockIdLine + linhaAleatoria.nrBase)
  let (g', buffer, contentId) ← g.generateData blockId compressionIndex d.content
  .ok (g', buffer,
    { infoWrite with
      blockId := blockId
      contId := ofInt32 contentId
      compressionIndex := compressionIndex
      flagUniqueBlock := if linhaAleatoria.nrCopies = 0 then 1 else 0 })

end Generator

end Dedisbench
