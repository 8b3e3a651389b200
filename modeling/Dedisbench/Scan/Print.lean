import Dedisbench.Lib.Text
import Dedisbench.Scan.Defs

/-!
# Printing a distribution

`print_elements_print` writes the print database to two files: the distribution itself, a line for
each record, and a cumulative one, in which the records are gathered in the slots of an array by the
size of their key, the tail of the array is folded towards its start, and the slots are printed.

The labels of the slots and the powers of ten are `int`s; their products are taken modulo `2 ^ 32`,
as they overflow in every run.
-/

namespace Dedisbench

open Tally ExceptRun

/-! ### Slots -/

/-- A product of `int`s. -/
def intMul (a b : ℤ) : ℤ := toInt32 (ofInt32 (a * b))

/-- The loop of `powr`. -/
def powrLoop (base result : ℤ) (power : ℕ) : ℤ :=
  if power = 0 then result
  else powrLoop (intMul base base) (if power % 2 = 1 then intMul result base else result) (power / 2)
termination_by power
decreasing_by exact Nat.div_lt_self (Nat.pos_of_ne_zero (by assumption)) (by decide)

/-- `powr` -/
def powr (base : ℤ) (power : ℕ) : ℤ := powrLoop base 1 power

/-- `find_bucket`: the number of decimal digits. -/
def findBucket (key : ℕ) : ℕ := if key = 0 then 0 else findBucket (key / 10) + 1
termination_by key
decreasing_by exact Nat.div_lt_self (Nat.pos_of_ne_zero (by assumption)) (by decide)

/-- The bucket of a key and its power of ten, after the correction. -/
def bucketPower (keyData : UInt64) : ℕ × ℤ :=
  let bucket := findBucket keyData.toNat
  let power := powr 10 bucket
  if UInt64.ofInt power ≤ keyData then (bucket + 1, intMul power 10) else (bucket, power)

/-- `arr_pos`: the slot of a key other than zero. -/
def arrPos (keyData : UInt64) : ℕ :=
  let (bucket, power) := bucketPower keyData
  if UInt64.ofInt (power.tdiv 2) ≤ keyData then bucket * 2 else bucket * 2 - 1

/-! ### The scan -/

/-- A line of the cumulative file: `[0] n` or `[lo,hi[ n`. -/
inductive CumulLine where
  | zero (count : UInt64)
  | range (lo hi : ℤ) (count : UInt64)
  deriving DecidableEq

/-- The count on a line. -/
def CumulLine.count : CumulLine → UInt64
  | .zero n => n
  | .range _ _ n => n

/-- `fprintf(fpcumul, …)`; there may be no stream. -/
def printCumul (fpcumul : Option (List CumulLine)) (line : CumulLine) : Exec (Option (List CumulLine)) :=
  match fpcumul with
  | none => .error .undefined
  | some out => .ok (some (out ++ [line]))

/-- The array of slots, the highest slot used, and what has been written. -/
structure CumulState where
  dups : List UInt64
  max : ℕ
  fpcumul : Option (List CumulLine)

/-- The slots, doubled if the slot is outside. -/
def growDups (dups : List UInt64) (pos : ℕ) : List UInt64 :=
  if dups.length ≤ pos then dups ++ List.replicate dups.length 0 else dups

/-- One round of the scan, for a record the cursor returns. -/
def cumulStep (s : CumulState) (data : UInt64 × UInt64) : Exec CumulState :=
  if data.1 = 0 then do
    let fpcumul ← printCumul s.fpcumul (.zero data.2)
    if s.dups.length = 0 then .error .undefined else .ok { s with dups := s.dups.set 0 data.2, fpcumul }
  else
    let pos := arrPos data.1
    let dups := growDups s.dups pos
    match dups[pos]? with
    | none => .error .undefined
    | some d => .ok { s with dups := dups.set pos (d + data.2), max := if s.max < pos then pos else s.max }

/-! ### The fold and the ranges -/

/-- The loop that folds the slots with at most 300 blocks into the slot below, from slot `i` down.
Below slot zero there is none. -/
def foldTail : ℕ → List UInt64 → Exec (List UInt64)
  | 0, dups =>
    match dups[0]? with
    | some d => if d ≤ 300 then .error .undefined else .ok dups
    | none => .error .undefined
  | i + 1, dups =>
    match dups[i + 1]?, dups[i]? with
    | some d, some below => if d ≤ 300 then foldTail i ((dups.set i (below + d)).set (i + 1) 0) else .ok dups
    | _, _ => .error .undefined

/-- The lines of the printing loop for the slots from the next one on. -/
def rangeLines : List UInt64 → ℤ → ℤ → List CumulLine
  | [], _, _ => []
  | [d], init, final => if d ≠ 0 then [.range init (final >>> (1 : ℕ)) d] else []
  | d :: d' :: dups, init, final =>
    (if d ≠ 0 then [.range init (final >>> (1 : ℕ)) d] else []) ++
      (if d' ≠ 0 then [.range (final >>> (1 : ℕ)) (intMul init 10) d'] else []) ++
      rangeLines dups final (intMul final 10)

/-- The number of slots at the start. -/
def dupsLen : ℕ := 50

/-- The cumulative file, the cursor over the print database returning the records `recs`. -/
def printCumulative (recs : List (UInt64 × UInt64)) (fpcumul : Option (List CumulLine)) :
    Exec (Option (List CumulLine)) := do
  let s ← recs.foldlM cumulStep ⟨List.replicate dupsLen 0, 0, fpcumul⟩
  let dups ← foldTail s.max s.dups
  (rangeLines (dups.drop 1) 1 10).foldlM printCumul s.fpcumul

/-! ### The distribution -/

/-- A line of the distribution: number of duplicates and number of blocks. -/
def distLine (data : UInt64 × UInt64) : List Char :=
  Text.decimal data.1.toNat ++ ' ' :: Text.decimal data.2.toNat

/-- The distribution, as text. -/
def distText (recs : List (UInt64 × UInt64)) : List Char := recs.flatMap fun data => distLine data ++ ['\n']

/-- `print_elements_print`: what it writes to its two streams. -/
def printElementsPrint (recs : List (UInt64 × UInt64)) (fpcumul : Option (List CumulLine)) :
    Exec (List Char × Option (List CumulLine)) := do
  let fpcumul ← printCumulative recs fpcumul
  .ok (distText recs, fpcumul)

end Dedisbench
