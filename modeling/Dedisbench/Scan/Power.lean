import Mathlib.Algebra.Order.Ring.Abs
import Mathlib.Data.Nat.Size
import Mathlib.Tactic.NormNum
import Dedisbench.Scan.Ranges

/-!
# The products of `powr`

`powr` squares its base once more behind the last digit of the exponent, and the square may leave the range of an `int`
although the power does not.  `powr_exact_iff` says for which arguments no product leaves it.
-/

namespace Dedisbench

open ExceptRun

/-- The loop of `powr`, where a product that is not an `int` is undefined. -/
def checkedPowrLoop (base result : ℤ) (exp : ℕ) : Exec ℤ :=
  if exp = 0 then .ok result
  else do
    let result ← if exp % 2 = 1 then cInt (result * base) else .ok result
    let base ← cInt (base * base)
    checkedPowrLoop base result (exp / 2)
termination_by exp
decreasing_by omega

/-- `powr` of `utils.c`, and the one of `berk.c`, which has another name for the exponent. -/
def checkedPowr (base : ℤ) (exp : ℕ) : Exec ℤ := checkedPowrLoop base 1 exp

section Loop

variable {base result x : ℤ} {exp : ℕ}

/-- A round of the loop. -/
theorem checkedPowrLoop_eq_ok (hexp : exp ≠ 0) : checkedPowrLoop base result exp = .ok x ↔
    (exp % 2 = 1 → -2 ^ 31 ≤ result * base ∧ result * base < 2 ^ 31) ∧ base * base < 2 ^ 31 ∧
      checkedPowrLoop (base * base) (if exp % 2 = 1 then result * base else result) (exp / 2) = .ok x := by
  have hsquare : -2 ^ 31 ≤ base * base := le_trans (by norm_num) (mul_self_nonneg base)
  have hbase : ∀ r, (cInt (base * base) >>= fun base => checkedPowrLoop base r (exp / 2)) = .ok x ↔
      base * base < 2 ^ 31 ∧ checkedPowrLoop (base * base) r (exp / 2) = .ok x := by
    intro r
    rw [bind_eq_ok]
    constructor
    · rintro ⟨_, hcint, hrest⟩
      obtain ⟨⟨-, hlt⟩, rfl⟩ := cInt_eq_ok.mp hcint
      exact ⟨hlt, hrest⟩
    · rintro ⟨hlt, hrest⟩
      exact ⟨_, cInt_eq_ok.mpr ⟨⟨hsquare, hlt⟩, rfl⟩, hrest⟩
  rw [checkedPowrLoop, if_neg hexp]
  by_cases hodd : exp % 2 = 1
  · rw [if_pos hodd, if_pos hodd, bind_eq_ok]
    constructor
    · rintro ⟨_, hcint, hrest⟩
      obtain ⟨hrange, rfl⟩ := cInt_eq_ok.mp hcint
      exact ⟨fun _ => hrange, (hbase _).mp hrest⟩
    · rintro ⟨hrange, hrest⟩
      exact ⟨_, cInt_eq_ok.mpr ⟨hrange hodd, rfl⟩, (hbase _).mpr hrest⟩
  · rw [if_neg hodd, if_neg hodd, bind_ok, hbase]
    exact ⟨fun hrest => ⟨fun h => absurd h hodd, hrest⟩, fun h => h.2⟩

/-- There is a digit for every round. -/
theorem size_half (hexp : exp ≠ 0) : exp.size = (exp / 2).size + 1 := by
  refine eq_of_forall_ge_iff fun k => ?_
  cases k with
  | zero => simp [Nat.size_eq_zero, hexp]
  | succ k =>
    rw [Nat.size_le, Nat.add_le_add_iff_right, Nat.size_le, Nat.pow_succ]
    omega

/-- The last square is that of the base a round later. -/
theorem lastSquare_half (base : ℤ) (hexp : exp ≠ 0) : base ^ 2 ^ exp.size = (base * base) ^ 2 ^ (exp / 2).size := by
  rw [size_half hexp, Nat.pow_succ, Nat.mul_comm, pow_mul, sq]

/-- A loop that comes back has made the last square. -/
theorem lastSquare_lt (hbase : base < 2 ^ 31) (h : checkedPowrLoop base result exp = .ok x) :
    base ^ 2 ^ exp.size < 2 ^ 31 := by
  induction exp using Nat.strong_induction_on generalizing base result with
  | _ exp ih =>
    by_cases hexp : exp = 0
    · rw [hexp, Nat.size_zero, pow_zero, pow_one]
      exact hbase
    · obtain ⟨-, hsquare, hrest⟩ := (checkedPowrLoop_eq_ok hexp).mp h
      rw [lastSquare_half base hexp]
      exact ih _ (by omega) hsquare hrest

/-- The loop keeps the product of the result and the power that is left, and no product is larger than that or the last
square. -/
theorem checkedPowrLoop_ok (hsquare : base ^ 2 ^ exp.size < 2 ^ 31) (hpower : |result| * |base| ^ exp < 2 ^ 31) :
    checkedPowrLoop base result exp = .ok (result * base ^ exp) := by
  induction exp using Nat.strong_induction_on generalizing base result with
  | _ exp ih =>
    by_cases hexp : exp = 0
    · rw [hexp, checkedPowrLoop, if_pos rfl, pow_zero, mul_one]
    · have hhalf : exp / 2 < exp := by omega
      rw [lastSquare_half base hexp] at hsquare
      have hbase : base * base < 2 ^ 31 := by
        rcases eq_or_ne base 0 with rfl | hne
        · norm_num
        · have hone : 1 ≤ base * base := mul_self_pos.mpr hne
          exact (le_self_pow₀ hone (Nat.pow_pos two_pos).ne').trans_lt hsquare
      refine (checkedPowrLoop_eq_ok hexp).mpr ⟨fun hodd => ?_, hbase, ?_⟩
      · have hle : |result * base| ≤ |result| * |base| ^ exp := by
          rcases eq_or_ne base 0 with rfl | hne
          · simp [hexp]
          · rw [abs_mul]
            exact mul_le_mul_of_nonneg_left (le_self_pow₀ (Int.one_le_abs hne) hexp) (abs_nonneg result)
        have := abs_lt.mp (hle.trans_lt hpower)
        omega
      · have hdigit := Nat.div_add_mod exp 2
        by_cases hodd : exp % 2 = 1
        · rw [if_pos hodd, ih _ hhalf hsquare]
          · congr 1
            conv_rhs => rw [← hdigit, hodd]
            ring
          · convert hpower using 1
            conv_rhs => rw [← hdigit, hodd]
            rw [abs_mul, abs_mul]
            ring
        · rw [if_neg hodd, ih _ hhalf hsquare]
          · congr 1
            conv_rhs => rw [← hdigit, show exp % 2 = 0 by omega]
            ring
          · convert hpower using 1
            conv_rhs => rw [← hdigit, show exp % 2 = 0 by omega]
            rw [abs_mul]
            ring

/-- The power is not larger than the last square. -/
theorem abs_pow_lt (h : base ^ 2 ^ exp.size < 2 ^ 31) : |base| ^ exp < 2 ^ 31 := by
  rcases eq_or_ne exp 0 with rfl | hexp
  · norm_num
  rcases eq_or_ne base 0 with rfl | hne
  · rw [abs_zero, zero_pow hexp]
    norm_num
  · have heven : Even (2 ^ exp.size) := (even_two).pow_of_ne_zero (by rw [Ne, Nat.size_eq_zero]; exact hexp)
    calc |base| ^ exp ≤ |base| ^ 2 ^ exp.size :=
          pow_le_pow_right₀ (Int.one_le_abs hne) (Nat.lt_size_self exp).le
      _ = base ^ 2 ^ exp.size := heven.pow_abs base
      _ < 2 ^ 31 := h

theorem checkedPowr_ok (h : base ^ 2 ^ exp.size < 2 ^ 31) : checkedPowr base exp = .ok (base ^ exp) := by
  have hpower : |(1 : ℤ)| * |base| ^ exp < 2 ^ 31 := by
    rw [abs_one, one_mul]
    exact abs_pow_lt h
  rw [checkedPowr, checkedPowrLoop_ok h hpower, one_mul]

/-- Where no product leaves the range, `powr` is what it is with products that wrap. -/
theorem powr_of_checkedPowr (hbase : base < 2 ^ 31) (h : checkedPowr base exp = .ok x) : powr base exp = x := by
  have hsquare := lastSquare_lt hbase h
  have hlt := abs_lt.mp ((abs_pow base exp).trans_lt (abs_pow_lt hsquare))
  rw [checkedPowr_ok hsquare, Except.ok.injEq] at h
  rw [powr_eq, ← h]
  exact intWrap_of_lt hlt.1.le hlt.2

/-- The powers of ten that the accesses and the duplicates are sorted by: no product leaves the range for numbers of up to
seven digits. -/
theorem checkedPowr_ten_iff {bucket : ℕ} : checkedPowr 10 bucket = .ok (10 ^ bucket) ↔ bucket ≤ 7 := by
  have hten : (10 : ℤ) ^ 2 ^ bucket.size < 2 ^ 31 ↔ bucket.size ≤ 3 := by
    constructor
    · intro h
      by_contra hlt
      have hle : (10 : ℤ) ^ 2 ^ 4 ≤ 10 ^ 2 ^ bucket.size :=
        pow_le_pow_right₀ (by norm_num) (Nat.pow_le_pow_right two_pos (not_le.mp hlt))
      exact absurd (hle.trans_lt h) (by norm_num)
    · intro hle
      have hpow : (10 : ℤ) ^ 2 ^ bucket.size ≤ 10 ^ 2 ^ 3 :=
        pow_le_pow_right₀ (by norm_num) (Nat.pow_le_pow_right two_pos hle)
      exact hpow.trans_lt (by norm_num)
  rw [Nat.size_le] at hten
  constructor
  · intro h
    exact Nat.le_of_lt_succ (hten.mp (lastSquare_lt (by norm_num) h))
  · intro h
    exact checkedPowr_ok (hten.mpr (Nat.lt_succ_of_le h))

end Loop

/-- **`powr` returns the power, and no product leaves the range of an `int`, exactly when the base to the power of `2 ^ k`
is an `int`**, for an exponent of `k` binary digits. -/
theorem powr_exact_iff {base : ℤ} {exp : ℕ} (hbase : -2 ^ 31 ≤ base ∧ base < 2 ^ 31) :
    checkedPowr base exp = .ok (base ^ exp) ↔ base ^ 2 ^ exp.size < 2 ^ 31 :=
  ⟨lastSquare_lt hbase.2, checkedPowr_ok⟩

/-- Numbers of seven digits. -/
theorem tenMillion_exact : checkedPowr 10 7 = .ok 10000000 :=
  (powr_exact_iff (by norm_num)).mpr (by decide)

/-- Numbers of eight digits: the power is an `int`, the square behind it is not. -/
theorem hundredMillion_not_exact : ((10 : ℤ) ^ 8 < 2 ^ 31) ∧ checkedPowr 10 8 ≠ .ok (10 ^ 8) := by
  refine ⟨by norm_num, fun h => ?_⟩
  exact absurd (lastSquare_lt (by norm_num) h) (by decide)

end Dedisbench
