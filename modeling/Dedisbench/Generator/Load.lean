import Dedisbench.Generator.Defs
import Dedisbench.Lib.Text

/-!
# Loading a distribution

`Generator::initialize`: the distribution file is read line by line into the lines of the
generator, the compression between blocks is estimated from random ids, and the models are built
and assigned to the ids.

A line of the file that leaves a field unset (a blank line, a line without a percentage) makes the
program copy a value it never wrote, which is undefined behaviour; a token that is no number, or a
number out of range, is an exception of `stoi` or `stof`.
-/

namespace Dedisbench

open ByteMem Text

/-! ### Numbers from tokens -/

/-- `std::stoi` -/
def stoi (token : List Char) : Exec ℤ :=
  match signAndDigits token with
  | none => .error .exception
  | some x => if -2 ^ 31 ≤ x ∧ x < 2 ^ 31 then .ok x else .error .exception

/-- A `float` as a `double`. -/
def widen (x : Float32.Model) : Float :=
  .ofModel (.pack (Float.Model.UnpackedFloat.mul Float.Model.Format.binary64 x.unpack
    (1 : Float).toModel.unpack))

/-- `m * 10 ^ e` is not zero, rounds to less than the smallest normal `float`, and is no `float`. -/
def Underflows (m : ℕ) (e : ℤ) : Prop :=
  e < 0 ∧ m * 2 ^ 151 < (2 ^ 25 - 1) * 10 ^ (-e).toNat ∧ ¬ 10 ^ (-e).toNat ∣ m * 2 ^ 149

instance (m : ℕ) (e : ℤ) : Decidable (Underflows m e) := inferInstanceAs (Decidable (_ ∧ _))

/-- `std::stof`, read into a `double`: decimal and hexadecimal numbers, infinities and not-a-numbers; a number too
large or too small for a `float` is an exception. -/
def stof (token : List Char) : Exec Float :=
  let (neg, cs) := takeSign (token.dropWhile isSpace)
  let signed := fun x : Float => if neg then -x else x
  match cs.map Char.toLower with
  | 'i' :: 'n' :: 'f' :: _ => .ok (signed (1 / 0))
  | 'n' :: 'a' :: 'n' :: _ => .ok (signed (0 / 0))
  | _ =>
    match numberParts cs with
    | none => .error .exception
    | some (m, e) =>
      let x := Float32.Model.ofScientific m e
      if x.isInf ∨ Underflows m e then .error .exception else .ok (signed (widen x))

/-! ### The lines -/

/-- The variables of the reading loop. -/
structure ParseState where
  linhas : List (Linha Float)
  weights : List Float
  nrBaseAux : ℕ
  zeroCopiesBlocks : ℕ
  totalUniqueBlocks : ℕ

/-- The number of different blocks of a line: its share of the blocks to generate, one copy of
each, and at least one. -/
def lineBlocks (blocosAGerar nrCopies : ℕ) (probabilidadeLinha : Float) : Exec ℕ := do
  let n ← toUInt (Float.ofNat blocosAGerar * (probabilidadeLinha / 100) / Float.ofNat (u32 (nrCopies + 1)))
  .ok (if n = 0 then 1 else n)

/-- One round of the reading loop. -/
def readLine (blocosAGerar : ℕ) (s : ParseState) (line : List Char) : Exec ParseState :=
  match getlines ' ' line with
  | [] => .error .undefined
  | [token] => do
    let _ ← stoi token
    .error .undefined
  | token :: percentage :: rest => do
    let copies ← stoi token
    let nrCopies := ofInt32 copies
    let probabilidadeLinha ← stof percentage
    let nrBlocks ← lineBlocks blocosAGerar nrCopies probabilidadeLinha
    let compression ← rest.mapM stof
    .ok { linhas := s.linhas ++ [⟨nrCopies, nrBlocks, s.nrBaseAux, compression⟩]
          weights := s.weights ++ [probabilidadeLinha]
          nrBaseAux := u32 (s.nrBaseAux + nrBlocks)
          zeroCopiesBlocks := if nrCopies = 0 then nrBlocks else s.zeroCopiesBlocks
          totalUniqueBlocks := u32 (s.totalUniqueBlocks + nrBlocks) }

/-- The reading loop. -/
def readLines (blocosAGerar : ℕ) (file : List Char) : Exec ParseState :=
  (getlines '\n' file).foldlM (readLine blocosAGerar) ⟨[], [], 0, 0, 0⟩

/-! ### The estimate -/

/-- The variables of the loop of `get_media_inter`. -/
structure MediaState where
  previousCompression : ℤ
  nrPairs : ℕ
  minimum : ℤ
  maximum : ℤ

/-- One round of the loop of `get_media_inter`: a random id, taken as the first or the second block
of a pair. -/
def mediaStep (g : Generator) (s : MediaState) (raw : ℕ) : Exec MediaState := do
  -- the distribution is over `int`s
  if toInt32 g.totalUniqueBlocks < 1 then .error .undefined
  else
    let idBlockAnalyze ← uniformInt 1 g.totalUniqueBlocks raw
    let current ← g.getBlockCompressionById idBlockAnalyze
    let previous := s.previousCompression
    if previous = -1 then .ok { s with previousCompression := current }
    else
      let newMediaMax := (current + previous + min (100 - current) (100 - previous)).tdiv 2
      let newMediaMin := (current + previous).tdiv 2
      let minimum ← cInt (s.minimum + newMediaMin)
      let maximum ← cInt (s.maximum + newMediaMax)
      .ok { previousCompression := -1, nrPairs := s.nrPairs + 1, minimum, maximum }

/-- `get_media_inter`; the product of the two counts is an `unsigned int`. -/
def getMediaInter (g : Generator) (percentageInterval : ℕ) (raw : ℕ → ℕ) : Exec (ℤ × ℤ) := do
  if 0 < percentageInterval ∧ percentageInterval < 100 then
    let rounds := u32 (g.totalUniqueBlocks * percentageInterval) / 100
    let s ← (List.range rounds).foldlM (fun s i => mediaStep g s (raw i)) ⟨-1, 0, 0, 0⟩
    if s.nrPairs = 0 then .error .divZero
    else .ok (s.minimum.tdiv s.nrPairs, s.maximum.tdiv s.nrPairs)
  else .ok (-1, -1)

/-! ### The models -/

/-- One pass of the filling loop of `blockModel`: the powers of `seed`, from the start of the
buffer whatever the round. -/
def fillBlock (seed : Float) (buffer : Mem) : Mem :=
  ((List.range 512).foldl (fun (s : Mem × Float) contador =>
    (write s.1 (8 * contador) 8 (doubleBytes s.2), s.2 * seed)) (buffer, 1)).1

/-- The inner copy loop of `blockModel`: the first `n` bytes, byte by byte, to `pos`. -/
def copyChunk (n pos : ℕ) (buffer : Mem) : Mem :=
  (List.range n).foldl (fun b i => Function.update b (pos + i) (b i)) buffer

/-- The copy loop of `blockModel`, at most `k` more rounds. -/
def copyLoop (size n : ℕ) : ℕ → ℕ → Mem → Mem
  | 0, _, buffer => buffer
  | k + 1, pos, buffer =>
    if pos < size - n then copyLoop size n k (pos + n) (copyChunk n pos buffer) else buffer

/-- `blockModel`: a block of the given size and compression in a buffer that `malloc` returned with
the contents `fresh`. -/
def blockModel (blockSize compression : ℕ) (seed : Float) (fresh : Mem) : Exec (Option Buffer) :=
  if compression < 1 ∨ 99 < compression then .ok none
  else
    let nrBlocos4096 := blockSize / 4096
    let size := nrBlocos4096 * 4096
    if 2 ^ 31 ≤ size then .error .undefined
    else if size = 0 then .ok none
    else
      let base := (fillBlock seed)^[nrBlocos4096] fresh
      .ok (some ⟨size, copyLoop size (size / 100) compression 0 base⟩)

/-- The compressions of the ten models of a vector. -/
def modelCompressions : List ℕ := (List.range 10).map fun i => 5 + 10 * i

/-- The number of model vectors, `nr_models`. -/
def nrModels : ℕ := 100

/-- What `initialize` draws and what `malloc` gives it. -/
structure LoadDraws where
  /-- the random ids of the estimate -/
  sample : ℕ → ℕ
  /-- the seed of each model vector, between `1.1` and `1.9` -/
  seed : ℕ → Float
  /-- the contents of fresh memory, by vector and compression -/
  fresh : ℕ → ℕ → Mem

/-- The model vectors; `none` if one of the models is missing. -/
def buildModels (blockSize : ℕ) (d : LoadDraws) : Exec (Option (List (List Buffer))) :=
  ExceptRun.collectM (fun v => ExceptRun.collectM
    (fun compression => blockModel blockSize compression (d.seed v) (d.fresh v compression))
    modelCompressions) (List.range nrModels)

/-- The number of ids of each model: `x` for the first, the rest spread over the others. -/
def assignModels (bu x : ℕ) : List ℕ :=
  let r := u32 (bu + 2 ^ 32 - x)
  let y := r / (nrModels - 1)
  let z := r % (nrModels - 1)
  let w := nrModels - 1 - z
  x :: (List.replicate w y ++ List.replicate z (y + 1))

/-- `loadModels`: `1`, or `-1` if a model is missing. -/
def loadModels (g : Generator) (d : LoadDraws) : Exec (Generator × ℤ) := do
  match ← buildModels g.blockSize d with
  | none => .ok (g, -1)
  | some modelos =>
    let p := Float.ofNat g.percentagemCompressaoEntreBlocos / 100
    let x ← toUInt (p.sqrt * Float.ofNat g.totalUniqueBlocks)
    .ok ({ g with modelos, atribuicao := assignModels g.totalUniqueBlocks x }, 1)

/-! ### The generator -/

/-- The constructor of `Generator`. -/
def Generator.mk' (blockSize blocosAGerar percentageUniqueBlocksAnalyze
    percentagemCompressaoEntreBlocos : ℕ) : Generator where
  blockSize := blockSize
  blocosAGerar := blocosAGerar
  percentageUniqueBlocksAnalyze := percentageUniqueBlocksAnalyze
  percentagemCompressaoEntreBlocos := percentagemCompressaoEntreBlocos
  zeroCopiesBlocks := 0
  totalUniqueBlocks := 0
  compressionsInterBlocksInterval := (0, 0)
  linhas := []
  weights := []
  modelos := []
  atribuicao := []

/-- What `initialize` tells the benchmark about the distribution. -/
structure DuplicatesInfo where
  totalBlocks : ℕ
  zeroCopyBlocks : ℕ
  duplicatedBlocks : ℕ
  uCount : ℕ
  deriving DecidableEq

/-- `Generator::initialize` (a reserved word here) on a fresh generator; `file` is the distribution file if it opens.  The
result is `1`, or `-1` for an error. -/
def initializeGenerator (g : Generator) (file : Option (List Char)) (d : LoadDraws) :
    Exec (Generator × Option DuplicatesInfo × ℤ) := do
  if g.blockSize < 4096 then .ok (g, none, -1)
  else if ¬(1 ≤ g.percentagemCompressaoEntreBlocos ∧ g.percentagemCompressaoEntreBlocos ≤ 100) then
    .ok (g, none, -1)
  else match file with
    | none => .ok (g, none, -1)
    | some text =>
      let s ← readLines g.blocosAGerar text
      let g := { g with
        linhas := s.linhas
        weights := s.weights
        zeroCopiesBlocks := s.zeroCopiesBlocks
        totalUniqueBlocks := s.totalUniqueBlocks }
      let interval ← getMediaInter g g.percentageUniqueBlocksAnalyze d.sample
      let (g, res) ← loadModels { g with compressionsInterBlocksInterval := interval } d
      -- an `unsigned int` subtraction stored in a `uint64_t`
      let duplicated := u32 (g.totalUniqueBlocks + 2 ^ 32 - g.zeroCopiesBlocks)
      .ok (g, some ⟨g.blocosAGerar, g.zeroCopiesBlocks, duplicated, duplicated + 1⟩, res)

end Dedisbench
