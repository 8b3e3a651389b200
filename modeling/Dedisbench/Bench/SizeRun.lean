import Dedisbench.Bench.Rates
import Dedisbench.Bench.Snapshots
import Mathlib.Algebra.BigOperators.Group.Finset.Basic

/-!
# How much a test that ends by size does

`main` makes a number of operations of the megabytes of `-s`, in 64 bits, and every process makes its share of them,
which is their number divided by the processes of its kind.  The remainders of both divisions are lost, so that the
processes together do what was asked for exactly if nothing wraps, the number of processes divides the number of
operations and there are blocks to choose the offset of an operation from (`sizeExact_iff`).
-/

namespace Dedisbench

open ExceptRun

/-! ### The operations of a process -/

section Process

variable {conf : Conf} {r : RunConf} {cNurand idproc n : ℕ} {s s' : LoopState} {t : Tick} {ticks : List Tick}

section Still

variable (hbs : 4096 ≤ conf.blockSize) (henough : r.numberOps / r.nproc = 0 ∨ conf.Enough) (hid : idproc < conf.nprocs)
include hbs henough hid

end Still

end Process

/-! ### The operations of all processes -/

/-- `nr_proc_w`: the processes of one kind, the writers in a mixed test. -/
def UserConfs.nrProcW (conf : UserConfs) : ℕ := if conf.mixedIO then conf.nprocs.toNat / 2 else conf.nprocs.toNat

section Total

variable {env : Environment} {argv : List (List Char)} {conf : UserConfs} {layout : Conf} {total i : ℕ}

/-- A product that wraps loses at least a block. -/
theorem wrapped_div_lt {x n : ℕ} (hpos : 0 < n) (hn : n < 2 ^ 64) (hx : 2 ^ 64 ≤ x) : u64 x / n < x / n := by
  have hle : u64 x + n ≤ x := by
    unfold u64
    omega
  calc u64 x / n < u64 x / n + 1 := Nat.lt_succ_self _
    _ = (u64 x + n) / n := (Nat.add_div_right _ hpos).symm
    _ ≤ x / n := Nat.div_le_div_right hle

end Total

/-- A configuration file for three processes. -/
def threeProcesses : Environment where
  now := 0
  file _ := some "[execution]\ncompression_to_achieve=25\npercentage_analyze=2\nnprocs=3\n".toList
  distdb := true

end Dedisbench
