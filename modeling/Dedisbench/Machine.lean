import Dedisbench.Lib.Runs
import Dedisbench.Lib.ByteMem

/-!
# The machine the program runs on

What the C and C++ of the program take from the language: the ways a call can fail to come back,
integers of a fixed width, vectors with a checked index, `double`, buffers and the C library
functions on them.  A step that does not come back is `.error`; undefined behaviour is one of the
faults, so that nothing is ever concluded about a run that reaches it.
-/

namespace Dedisbench

open ByteMem

/-- Why a call does not come back. -/
inductive Fault where
  /-- a C++ exception that nobody catches -/
  | exception
  /-- `exit` -/
  | exit
  /-- an integer division or remainder by zero -/
  | divZero
  /-- behaviour the language leaves undefined: an access outside an object, a value never set, an
  overflow of a signed integer -/
  | undefined
  /-- a loop that never ends -/
  | diverges
  deriving DecidableEq, Repr

/-- A call: its result, or why it does not come back. -/
abbrev Exec := Except Fault

/-- Whether a call comes back with a result that passes a test. -/
def okWith {α : Type} (x : Exec α) (test : α → Bool) : Bool :=
  match x with
  | .ok a => test a
  | .error _ => false

theorem exists_of_okWith {α : Type} {x : Exec α} {test : α → Bool} (h : okWith x test = true) :
    ∃ a, x = .ok a ∧ test a = true := by
  cases x with
  | error e => cases h
  | ok a => exact ⟨a, rfl, h⟩

/-- Whether a call ends with a fault. -/
def failsWith {α : Type} (x : Exec α) (fault : Fault) : Bool :=
  match x with
  | .ok _ => false
  | .error e => e = fault

theorem eq_error_of_failsWith {α : Type} {x : Exec α} {fault : Fault} (h : failsWith x fault = true) :
    x = .error fault := by
  cases x with
  | error e => rw [of_decide_eq_true h]
  | ok a => cases h

/-! ### Integers -/

/-- A value stored in an `unsigned int`. -/
def u32 (n : ℕ) : ℕ := n % 2 ^ 32

/-- A value stored in a `uint64_t`. -/
def u64 (n : ℕ) : ℕ := n % 2 ^ 64

/-- The largest `unsigned int`, also `std::mt19937::max()`. -/
def uintMax : ℕ := 2 ^ 32 - 1

/-- An `unsigned int` (or the low half of a `uint64_t`) read as an `int`. -/
def toInt32 (n : ℕ) : ℤ := if n % 2 ^ 32 < 2 ^ 31 then (n % 2 ^ 32 : ℕ) else (n % 2 ^ 32 : ℕ) - 2 ^ 32

/-- An `int` read as an `unsigned int`. -/
def ofInt32 (x : ℤ) : ℕ := (x % 2 ^ 32).toNat

/-- The result of an operation on `int`s. -/
def cInt (x : ℤ) : Exec ℤ := if -2 ^ 31 ≤ x ∧ x < 2 ^ 31 then .ok x else .error .undefined

theorem cInt_eq_ok {x y : ℤ} : cInt x = .ok y ↔ (-2 ^ 31 ≤ x ∧ x < 2 ^ 31) ∧ x = y := by
  unfold cInt
  split <;> simp_all

theorem u32_lt (n : ℕ) : u32 n < 2 ^ 32 := Nat.mod_lt _ (by decide)

theorem u32_of_lt {n : ℕ} (h : n < 2 ^ 32) : u32 n = n := Nat.mod_eq_of_lt h

theorem u32_add_u32 (m n : ℕ) : u32 (u32 m + n) = u32 (m + n) := by simp [u32]

/-- A subtraction that does not go below zero. -/
theorem u32_sub_of_le {m n : ℕ} (hm : m < 2 ^ 32) (hn : n ≤ m) : u32 (m + 2 ^ 32 - n) = m - n := by
  unfold u32
  rw [show m + 2 ^ 32 - n = (m - n) + 2 ^ 32 by omega, Nat.add_mod_right]
  exact Nat.mod_eq_of_lt (lt_of_le_of_lt (Nat.sub_le _ _) hm)

theorem toInt32_of_lt {n : ℕ} (h : n < 2 ^ 31) : toInt32 n = n := by
  rw [toInt32, Nat.mod_eq_of_lt (by omega), if_pos h]

theorem ofInt32_natCast {n : ℕ} (h : n < 2 ^ 32) : ofInt32 n = n := by
  unfold ofInt32
  omega

/-- An `unsigned int` returned as an `int` and stored in an `unsigned int` again is unchanged. -/
theorem ofInt32_toInt32 {n : ℕ} (h : n < 2 ^ 32) : ofInt32 (toInt32 n) = n := by
  unfold ofInt32 toInt32
  split <;> omega

/-- The one value that reads as `-1`. -/
theorem toInt32_eq_neg_one {n : ℕ} (h : n < 2 ^ 32) : toInt32 n = -1 ↔ n = uintMax := by
  unfold toInt32 uintMax
  split <;> omega

/-- The values `uniform_int_distribution(a, b)` takes, by an arbitrary raw draw. -/
def uniformInt (a b raw : ℕ) : Exec ℕ :=
  if a ≤ b then .ok (a + raw % (b - a + 1)) else .error .undefined

theorem uniformInt_eq_ok {a b raw n : ℕ} (h : uniformInt a b raw = .ok n) : a ≤ n ∧ n ≤ b := by
  unfold uniformInt at h
  split at h
  next hab =>
    simp only [Except.ok.injEq] at h
    have := Nat.mod_lt raw (show 0 < b - a + 1 by omega)
    omega
  next => cases h

/-- Every value between the bounds is drawn. -/
theorem uniformInt_surjective {a b n : ℕ} (ha : a ≤ n) (hb : n ≤ b) : uniformInt a b (n - a) = .ok n := by
  rw [uniformInt, if_pos (by omega), Nat.mod_eq_of_lt (by omega), Nat.add_sub_cancel' ha]

/-! ### `std::vector` -/

/-- `v.at(i)` -/
def vecAt {α : Type} (v : List α) (i : ℕ) : Exec α :=
  match v[i]? with
  | some a => .ok a
  | none => .error .exception

theorem vecAt_eq_ok {α : Type} {v : List α} {i : ℕ} {a : α} : vecAt v i = .ok a ↔ v[i]? = some a := by
  unfold vecAt
  split
  next b h => rw [h]; simp
  next h => rw [h]; simp

/-! ### `double` -/

/-- The arithmetic the compression shares are computed in.  The program computes in `double`. -/
class Arith (F : Type) where
  /-- an unsigned integer as a number -/
  ofNat : ℕ → F
  add : F → F → F
  mul : F → F → F
  div : F → F → F
  /-- the comparison `<=` -/
  le : F → F → Bool

instance : Arith Float := ⟨Float.ofNat, Float.add, Float.mul, Float.div, Float.le⟩

/-- A `double` converted to `unsigned int`: the fraction is dropped, and a value out of range is
undefined behaviour. -/
def toUInt (x : Float) : Exec ℕ :=
  if -1 < x ∧ x < 4294967296 then .ok x.toUInt32.toNat else .error .undefined

theorem toUInt_lt {x : Float} {n : ℕ} (h : toUInt x = .ok n) : n < 2 ^ 32 := by
  unfold toUInt at h
  split at h
  next =>
    simp only [Except.ok.injEq] at h
    exact h ▸ x.toUInt32.toNat_lt
  next => cases h

/-- The object representation of a `double`. -/
def doubleBytes (x : Float) : Mem := fun i => UInt8.ofNat (x.toBits.toNat / 256 ^ i)

/-! ### Buffers -/

/-- An allocated block of memory. -/
structure Buffer where
  size : ℕ
  byte : Mem

/-- The first `n` bytes of a buffer, for a function that reads them. -/
def Buffer.bytes (b : Buffer) (n : ℕ) : Exec (List UInt8) :=
  if n ≤ b.size then .ok (read b.byte 0 n) else .error .undefined

/-- `memcpy(&b[off], src, len)` -/
def Buffer.memcpy (b : Buffer) (off len : ℕ) (src : Mem) : Exec Buffer :=
  if off + len ≤ b.size then .ok { b with byte := write b.byte off len src } else .error .undefined

/-- `memcmp`: the difference at the first byte that differs. -/
def memcmp : List UInt8 → List UInt8 → ℤ
  | a :: as, b :: bs => if a = b then memcmp as bs else (a.toNat : ℤ) - b.toNat
  | _, _ => 0

theorem memcmp_eq_zero {as bs : List UInt8} (h : as.length = bs.length) : memcmp as bs = 0 ↔ as = bs := by
  induction as generalizing bs with
  | nil => cases bs with
    | nil => simp [memcmp]
    | cons b bs => simp at h
  | cons a as ih => cases bs with
    | nil => simp at h
    | cons b bs =>
      rw [memcmp]
      split
      next hab => rw [ih (by simpa using h), hab]; simp
      next hab =>
        have : a.toNat ≠ b.toNat := fun h => hab (UInt8.toNat_inj.mp h)
        simp only [List.cons.injEq, hab, false_and, iff_false]
        omega

theorem Buffer.bytes_eq_ok {b : Buffer} {n : ℕ} {l : List UInt8} :
    b.bytes n = .ok l ↔ n ≤ b.size ∧ read b.byte 0 n = l := by
  unfold Buffer.bytes
  split <;> simp_all

theorem Buffer.memcpy_eq_ok {b b' : Buffer} {off len : ℕ} {src : Mem} :
    b.memcpy off len src = .ok b' ↔
      off + len ≤ b.size ∧ b' = { b with byte := write b.byte off len src } := by
  unfold Buffer.memcpy
  split <;> simp_all [eq_comm]

end Dedisbench
