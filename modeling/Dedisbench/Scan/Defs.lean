import Mathlib.Data.UInt
import Dedisbench.Lib.Runs
import Dedisbench.Lib.Tally
import Dedisbench.Machine

/-!
# The duplicates scan

`DEDISgen`: files are cut into blocks (`extractBlocks`), every block is entered in the duplicates
database under its digest (`checkDuplicates`), and the database is turned into a distribution
(`genOutput`).  `DEDISgen-utils` merges one duplicates database into another (`mergeDbs`).

A database is a finite map, and a cursor over it returns its records in any order.
-/

namespace Dedisbench

open Tally ExceptRun

/-! ### Databases -/

/-- A database of `struct hash_value`s. -/
abbrev Db (K : Type) := Store K UInt64

/-- `dbp->get`; `none` is `DB_NOTFOUND` -/
def dbGet {K : Type} [DecidableEq K] (db : Db K) (key : K) : Option UInt64 := db.lookup key

/-- `dbp->put` -/
def dbPut {K : Type} [DecidableEq K] (db : Db K) (key : K) (cont : UInt64) : Db K := db.insert key cont

/-- The duplicates database: the key is a string, with its final zero. -/
abbrev DuplicateDb := Db (List UInt8)

/-- The print database: number of duplicates to number of blocks. -/
abbrev PrintDb := Db UInt64

def getDb (db : DuplicateDb) (hash : List UInt8) : Option UInt64 := dbGet db hash

def putDb (db : DuplicateDb) (hash : List UInt8) (cont : UInt64) : DuplicateDb := dbPut db hash cont

def getDbPrint (db : PrintDb) (hash : UInt64) : Option UInt64 := dbGet db hash

def putDbPrint (db : PrintDb) (hash : UInt64) (cont : UInt64) : PrintDb := dbPut db hash cont

/-! ### Digests -/

/-- What `SHA1` returns. -/
abbrev Digest := {result : List UInt8 // result.length = 20}

/-- The two letters of a byte: its low half, then its high half. -/
def letters (b : UInt8) : List UInt8 := [(b &&& 0x0f) + 97, ((b &&& 0xf0) >>> 4) + 97]

/-- The string of a digest: forty letters and a zero. -/
def visual (d : Digest) : List UInt8 := d.val.flatMap letters ++ [0]

/-! ### Entering a block -/

/-- The counters and the database of one block size. -/
structure Scan where
  /-- total blocks scanned -/
  totalBlocks : UInt64
  /-- identical blocks -/
  eq : UInt64
  /-- distinct blocks -/
  dif : UInt64
  /-- distinct blocks with duplicates -/
  distinctdup : UInt64
  /-- duplicated disk space -/
  space : UInt64
  db : DuplicateDb

/-- No block scanned, and an empty database. -/
def Scan.init : Scan := ⟨0, 0, 0, 0, 0, ∅⟩

/-- `check_duplicates` for one block size. -/
def checkDuplicates (sha1 : List UInt8 → Digest) (bsize : UInt64) (s : Scan) (block : List UInt8) : Scan :=
  let start := visual (sha1 block)
  let s := { s with totalBlocks := s.totalBlocks + 1 }
  match getDb s.db start with
  | none => { s with dif := s.dif + 1, db := putDb s.db start 1 }
  | some cont =>
    { s with
      distinctdup := if cont = 1 then s.distinctdup + 1 else s.distinctdup
      eq := s.eq + 1
      space := s.space + bsize
      db := putDb s.db start (cont + 1) }

/-- The blocks of one size, in the order in which they are scanned. -/
def scanBlocks (sha1 : List UInt8 → Digest) (bsize : UInt64) (s : Scan) (blocks : List (List UInt8)) : Scan :=
  blocks.foldl (checkDuplicates sha1 bsize) s

/-- The blocks without duplicates, as `main` prints them. -/
def Scan.zerodups (s : Scan) : UInt64 := s.dif - s.distinctdup

/-! ### The distribution -/

/-- One round of `gen_output`, for a record the cursor returns. -/
def genOutputStep (dbprint : PrintDb) (data : List UInt8 × UInt64) : PrintDb :=
  let ndups := data.2 - 1
  match getDbPrint dbprint ndups with
  | none => putDbPrint dbprint ndups 1
  | some cont => putDbPrint dbprint ndups (cont + 1)

/-- `gen_output`, the cursor over the duplicates database returning the records `recs`. -/
def genOutput (recs : List (List UInt8 × UInt64)) (dbprint : PrintDb) : PrintDb :=
  recs.foldl genOutputStep dbprint

/-! ### Merging -/

/-- The two databases, and how many digests of the merged one the base had and did not have. -/
structure Merge where
  dbMerge : DuplicateDb
  dbBase : DuplicateDb
  matched : UInt64
  notmatched : UInt64

/-- One round of `merge_dbs`, for a record the cursor returns. -/
def mergeStep (s : Merge) (data : List UInt8 × UInt64) : Merge :=
  let ndups := data.2
  match getDb s.dbBase data.1 with
  | none => { s with notmatched := s.notmatched + 1, dbBase := putDb s.dbBase data.1 ndups }
  | some cont => { s with matched := s.matched + 1, dbBase := putDb s.dbBase data.1 (cont + ndups) }

/-- `merge_dbs`, the cursor over the merged database returning the records `recs`. -/
def mergeDbs (recs : List (List UInt8 × UInt64)) (s : Merge) : Merge := recs.foldl mergeStep s

/-! ### Cutting files into blocks -/

/-- The size of a read. -/
def readsize : ℕ := 5242880

/-- The loop of `extract_blocks` over the blocks of one size in what a read returned.  A size of
zero never gets to the end; `malloc` has no block of a negative size. -/
def chunkLoop {σ : Type} (check : σ → List UInt8 → σ) (blockRead : List UInt8) (sizeBlock : ℤ) (s : σ) : Exec σ :=
  if sizeBlock < 0 then .error .undefined
  else if hsize : sizeBlock.toNat = 0 then .error .diverges
  else .ok (go sizeBlock.toNat (Nat.pos_of_ne_zero hsize) 0 s)
where
  go (size : ℕ) (hsize : 0 < size) (sizeProced : ℕ) (s : σ) : σ :=
    if size ≤ blockRead.length - sizeProced then
      go size hsize (sizeProced + size) (check s ((blockRead.drop sizeProced).take size))
    else s
  termination_by blockRead.length - sizeProced

/-- The loop of `extract_blocks` over the block sizes; `check` also gets the position of the size
in the list. -/
def sizesLoop {σ : Type} (check : ℕ → ℤ → σ → List UInt8 → σ) (sizesProc : List ℤ) (blockRead : List UInt8)
    (s : σ) : Exec σ :=
  sizesProc.zipIdx.foldlM (fun s size => chunkLoop (check size.2 size.1) blockRead size.1 s) s

/-- The loop of `extract_blocks` over the reads of a file, from `off` on. -/
def readLoop {σ : Type} (check : ℕ → ℤ → σ → List UInt8 → σ) (sizesProc : List ℤ) (content : List UInt8)
    (off : ℕ) (s : σ) : Exec σ :=
  let blockRead := (content.drop off).take readsize
  if blockRead.length = 0 then .ok s
  else do
    let s ← sizesLoop check sizesProc blockRead s
    readLoop check sizesProc content (off + readsize) s
termination_by content.length - off
decreasing_by
  have hne : ((content.drop off).take readsize).length ≠ 0 := by assumption
  simp only [List.length_take, List.length_drop, readsize] at hne
  simp only [readsize]
  omega

/-- `extract_blocks`: the blocks of a file, each handed to `check`.  A file that does not open reads
as an error, which ends the loop. -/
def extractBlocks {σ : Type} (check : ℕ → ℤ → σ → List UInt8 → σ) (sizesProc : List ℤ)
    (file : Option (List UInt8)) (s : σ) : Exec σ :=
  match file with
  | none => .ok s
  | some content => readLoop check sizesProc content 0 s

end Dedisbench
