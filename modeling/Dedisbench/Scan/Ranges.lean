import Dedisbench.Scan.Cumulative
import Mathlib.Data.Int.ModEq

/-!
# Slots and their ranges

The slot of a key comes from the number of its digits and a power of ten in an `int`; the label of a slot comes from
the loop that prints it, which multiplies by ten for each pair of slots.  Below `10 ^ 9` both are the ranges from 1, 5,
10, 50 and so on (`rangeStart_arrPos`, `slotLabel_eq`).  From there on the products wrap, and the slot fits its label as
far as 1410065408, `10 ^ 10` modulo `2 ^ 32` (`labelled_iff`).
-/

namespace Dedisbench

/-! ### Products of `int`s -/

/-- A number brought into the range of an `int`. -/
def intWrap (x : ℤ) : ℤ := toInt32 (ofInt32 x)

theorem intMul_eq (a b : ℤ) : intMul a b = intWrap (a * b) := rfl

theorem intWrap_lt (x : ℤ) : -2 ^ 31 ≤ intWrap x ∧ intWrap x < 2 ^ 31 := by
  unfold intWrap toInt32
  split <;> omega

theorem intWrap_modEq (x : ℤ) : intWrap x ≡ x [ZMOD 2 ^ 32] := by
  unfold intWrap toInt32 ofInt32 Int.ModEq
  split <;> omega

theorem intWrap_congr {x y : ℤ} (h : x ≡ y [ZMOD 2 ^ 32]) : intWrap x = intWrap y := by
  unfold intWrap ofInt32
  rw [show x % 2 ^ 32 = y % 2 ^ 32 from h]

theorem intWrap_of_lt {x : ℤ} (h : -2 ^ 31 ≤ x) (h' : x < 2 ^ 31) : intWrap x = x := by
  unfold intWrap toInt32 ofInt32
  split <;> omega

theorem intWrap_intWrap (x : ℤ) : intWrap (intWrap x) = intWrap x :=
  intWrap_of_lt (intWrap_lt x).1 (intWrap_lt x).2

/-- The loop of `powr` keeps the product of the result and the power that is left. -/
theorem powrLoop_eq (base : ℤ) {result : ℤ} (hresult : intWrap result = result) (n : ℕ) :
    powrLoop base result n = intWrap (result * base ^ n) := by
  induction n using Nat.strong_induction_on generalizing base result with
  | _ n ih =>
    rw [powrLoop]
    split
    next hzero => rw [hzero, pow_zero, mul_one, hresult]
    next hpos =>
      have hhalf := Nat.div_lt_self (Nat.pos_of_ne_zero hpos) (by decide : 1 < 2)
      have hsquares : intMul base base ^ (n / 2) ≡ (base * base) ^ (n / 2) [ZMOD 2 ^ 32] :=
        (intWrap_modEq (base * base)).pow _
      have hdigit := Nat.div_add_mod n 2
      split
      next hodd =>
        have hprod : result * base * (base * base) ^ (n / 2) = result * base ^ n := by
          conv_rhs => rw [← hdigit, hodd]
          ring
        rw [intMul_eq result base, ih _ hhalf _ (intWrap_intWrap _), ← hprod]
        exact intWrap_congr ((intWrap_modEq (result * base)).mul hsquares)
      next heven =>
        have hprod : result * (base * base) ^ (n / 2) = result * base ^ n := by
          conv_rhs => rw [← hdigit, show n % 2 = 0 by omega]
          ring
        rw [ih _ hhalf _ hresult, ← hprod]
        exact intWrap_congr (hsquares.mul_left result)

theorem powr_eq (base : ℤ) (n : ℕ) : powr base n = intWrap (base ^ n) := by
  rw [powr, powrLoop_eq base (by decide), one_mul]

/-- The powers of ten that are an `int`. -/
theorem powr_ten {d : ℕ} (h : d ≤ 9) : powr 10 d = (10 ^ d : ℕ) := by
  have hle : 10 ^ d ≤ 10 ^ 9 := Nat.pow_le_pow_right (by decide) h
  rw [powr_eq, show (10 : ℤ) ^ d = (10 ^ d : ℕ) by norm_cast]
  generalize 10 ^ d = power at hle
  exact intWrap_of_lt (by omega) (by omega)

/-! ### The ranges -/

/-- Where the range of a slot starts: 1, 5, 10, 50 and so on, from the first slot on. -/
def rangeStart (p : ℕ) : ℕ := (if p % 2 = 1 then 1 else 5) * 10 ^ ((p - 1) / 2)

theorem rangeStart_odd (m : ℕ) : rangeStart (2 * m + 1) = 10 ^ m := by
  rw [rangeStart, if_pos (by omega), one_mul, show (2 * m + 1 - 1) / 2 = m by omega]

theorem rangeStart_even (m : ℕ) : rangeStart (2 * m + 2) = 5 * 10 ^ m := by
  rw [rangeStart, if_neg (by omega), show (2 * m + 2 - 1) / 2 = m by omega]

theorem rangeStart_lt_succ {p : ℕ} (hp : 1 ≤ p) : rangeStart p < rangeStart (p + 1) := by
  rcases Nat.even_or_odd' p with ⟨m, rfl | rfl⟩
  · obtain ⟨k, rfl⟩ : ∃ k, m = k + 1 := ⟨m - 1, by omega⟩
    have hpow : 0 < 10 ^ k := Nat.pow_pos (by decide)
    rw [show 2 * (k + 1) = 2 * k + 2 by ring, rangeStart_even, show 2 * k + 2 + 1 = 2 * (k + 1) + 1 by ring,
      rangeStart_odd, Nat.pow_succ]
    omega
  · have hpow : 0 < 10 ^ m := Nat.pow_pos (by decide)
    rw [rangeStart_odd, show 2 * m + 1 + 1 = 2 * m + 2 by ring, rangeStart_even]
    omega

theorem rangeStart_mono {p q : ℕ} (hp : 1 ≤ p) (hpq : p ≤ q) : rangeStart p ≤ rangeStart q := by
  induction q, hpq using Nat.le_induction with
  | base => exact le_rfl
  | succ q hq ih => exact ih.trans (rangeStart_lt_succ (hp.trans hq)).le

/-- A number lies in one range only. -/
theorem eq_of_inRange {p q n : ℕ} (hpn : rangeStart p ≤ n ∧ n < rangeStart (p + 1))
    (hqn : rangeStart q ≤ n ∧ n < rangeStart (q + 1)) : p = q := by
  rcases Nat.lt_trichotomy p q with hlt | heq | hgt
  · have hle := rangeStart_mono (Nat.succ_pos p) (show p + 1 ≤ q from hlt)
    exact absurd (hpn.2.trans_le (hle.trans hqn.1)) (lt_irrefl n)
  · exact heq
  · have hle := rangeStart_mono (Nat.succ_pos q) (show q + 1 ≤ p from hgt)
    exact absurd (hqn.2.trans_le (hle.trans hpn.1)) (lt_irrefl n)

/-! ### The slot of a key -/

theorem findBucket_spec {key : ℕ} (h : key ≠ 0) : 10 ^ (findBucket key - 1) ≤ key ∧ key < 10 ^ findBucket key := by
  induction key using Nat.strong_induction_on with
  | _ key ih =>
    rw [findBucket, if_neg h, Nat.add_sub_cancel]
    by_cases hzero : key / 10 = 0
    · rw [hzero, findBucket, if_pos rfl]
      omega
    · have hpos := findBucket_pos hzero
      obtain ⟨hlo, hhi⟩ := ih (key / 10) (by omega) hzero
      have hpow : 10 ^ findBucket (key / 10) = 10 ^ (findBucket (key / 10) - 1) * 10 := by
        rw [← Nat.pow_succ, Nat.succ_eq_add_one, Nat.sub_add_cancel hpos]
      rw [Nat.pow_succ]
      omega

theorem toNat_ofInt_natCast {n : ℕ} (h : n < 2 ^ 64) : (UInt64.ofInt n).toNat = n := by
  have hmod : ((n : ℤ) % 2 ^ 64).toNat = n := by omega
  rw [UInt64.ofInt, hmod]
  exact UInt64.toNat_ofNat_of_lt' h

theorem arrPos_zero : arrPos 0 = 0 := by
  have hbucket : bucketPower 0 = (0, 1) := by
    have hdigits : findBucket (0 : UInt64).toNat = 0 := by
      rw [findBucket]
      rfl
    have hpower : powr 10 0 = 1 := by
      rw [powr_eq]
      decide
    simp only [bucketPower, hdigits, hpower]
    rfl
  rw [arrPos, hbucket]
  rfl

theorem arrPos_pos {c : UInt64} : 0 < arrPos c ↔ 0 < c.toNat := by
  constructor
  · intro hpos
    refine Nat.pos_of_ne_zero fun hzero => ?_
    rw [show c = 0 from UInt64.toNat_inj.mp hzero, arrPos_zero] at hpos
    exact absurd hpos (lt_irrefl 0)
  · intro hpos
    exact (arrPos_bounds fun hzero => by simp [hzero] at hpos).1

/-- The slot of a key below its power of ten. -/
theorem arrPos_of_lt {key : UInt64} {d power : ℕ} (hd : findBucket key.toNat = d) (hpower : powr 10 d = power)
    (hpower64 : power < 2 ^ 64) (hlt : key.toNat < power) :
    arrPos key = if power / 2 ≤ key.toNat then 2 * d else 2 * d - 1 := by
  have hbucket : bucketPower key = (d, (power : ℤ)) := by
    have hnot : ¬ UInt64.ofInt (power : ℤ) ≤ key := by
      rw [UInt64.le_iff_toNat_le, toNat_ofInt_natCast hpower64]
      omega
    simp only [bucketPower, hd, hpower, if_neg hnot]
  have hhalf : UInt64.ofInt ((power : ℤ).tdiv 2) ≤ key ↔ power / 2 ≤ key.toNat := by
    rw [show (power : ℤ).tdiv 2 = (power / 2 : ℕ) from rfl, UInt64.le_iff_toNat_le, toNat_ofInt_natCast (by omega)]
  rw [arrPos, hbucket]
  simp only [hhalf, Nat.mul_comm]

/-- And of one that is not. -/
theorem arrPos_of_ge {key : UInt64} {d power power' : ℕ} (hd : findBucket key.toNat = d) (hpower : powr 10 d = power)
    (hpower' : intMul power 10 = power') (hpower64 : power < 2 ^ 64) (hpower64' : power' < 2 ^ 64)
    (hle : power ≤ key.toNat) : arrPos key = if power' / 2 ≤ key.toNat then 2 * (d + 1) else 2 * (d + 1) - 1 := by
  have hbucket : bucketPower key = (d + 1, (power' : ℤ)) := by
    have hle : UInt64.ofInt (power : ℤ) ≤ key := by
      rwa [UInt64.le_iff_toNat_le, toNat_ofInt_natCast hpower64]
    simp only [bucketPower, hd, hpower, if_pos hle, hpower']
  have hhalf : UInt64.ofInt ((power' : ℤ).tdiv 2) ≤ key ↔ power' / 2 ≤ key.toNat := by
    rw [show (power' : ℤ).tdiv 2 = (power' / 2 : ℕ) from rfl, UInt64.le_iff_toNat_le, toNat_ofInt_natCast (by omega)]
  rw [arrPos, hbucket]
  simp only [hhalf, Nat.mul_comm]

/-- **Below `10 ^ 9`, a key is in the range of its slot.** -/
theorem rangeStart_arrPos {key : UInt64} (h : key ≠ 0) (hlt : key.toNat < 10 ^ 9) :
    rangeStart (arrPos key) ≤ key.toNat ∧ key.toNat < rangeStart (arrPos key + 1) ∧ arrPos key ≤ 18 := by
  have hne : key.toNat ≠ 0 := fun h0 => h (UInt64.toNat_inj.mp h0)
  obtain ⟨hlo, hhi⟩ := findBucket_spec hne
  have hpos := findBucket_pos hne
  have hd : findBucket key.toNat ≤ 9 := findBucket_le hlt
  have hpow : 10 ^ findBucket key.toNat ≤ 10 ^ 9 := Nat.pow_le_pow_right (by decide) hd
  have harr := arrPos_of_lt rfl (powr_ten hd) (by omega) hhi
  obtain ⟨m, hm⟩ : ∃ m, findBucket key.toNat = m + 1 := ⟨findBucket key.toNat - 1, by omega⟩
  rw [hm] at harr hlo hhi hd
  rw [Nat.add_sub_cancel] at hlo
  have hhalf : 10 ^ (m + 1) / 2 = 5 * 10 ^ m := by
    rw [Nat.pow_succ]
    omega
  rw [hhalf] at harr
  split at harr
  next hle =>
    rw [harr, show 2 * (m + 1) = 2 * m + 2 by ring, rangeStart_even, show 2 * m + 2 + 1 = 2 * (m + 1) + 1 by ring,
      rangeStart_odd]
    exact ⟨hle, hhi, by omega⟩
  next hnot =>
    rw [harr, show 2 * (m + 1) - 1 = 2 * m + 1 by omega, rangeStart_odd, show 2 * m + 1 + 1 = 2 * m + 2 by ring,
      rangeStart_even]
    exact ⟨hlo, not_le.mp hnot, by omega⟩

/-- The slots of larger keys, with the powers of ten that wrap. -/
theorem arrPos_of_wrapped {key : UInt64} (hle : 10 ^ 9 ≤ key.toNat) (hlt : key.toNat < 10 ^ 10) :
    arrPos key = if key.toNat < 1410065408 then 20 else 22 := by
  have hne : key.toNat ≠ 0 := by omega
  obtain ⟨hlo, hhi⟩ := findBucket_spec hne
  have hd : findBucket key.toNat = 10 := by
    refine le_antisymm (findBucket_le hlt) (not_lt.mp fun hlt9 => ?_)
    have hpow : 10 ^ findBucket key.toNat ≤ 10 ^ 9 := Nat.pow_le_pow_right (by decide) (Nat.le_of_lt_succ hlt9)
    omega
  have hpower : powr 10 10 = (1410065408 : ℕ) := by
    rw [powr_eq]
    decide
  have hpower' : intMul (1410065408 : ℕ) 10 = (1215752192 : ℕ) := by decide
  split
  next hless =>
    rw [arrPos_of_lt hd hpower (by decide) hless, if_pos (by omega)]
  next hmore =>
    rw [arrPos_of_ge hd hpower hpower' (by decide) (by decide) (not_lt.mp hmore), if_pos (by omega)]

/-! ### The label of a slot -/

/-- `init` and `final` of the printing loops after so many rounds. -/
def labelFinal : ℕ → ℤ
  | 0 => 10
  | m + 1 => intMul (labelFinal m) 10

def labelInit : ℕ → ℤ
  | 0 => 1
  | m + 1 => labelFinal m

/-- The label that a printing loop puts on a slot: a round prints two. -/
def slotLabel (p : ℕ) : ℤ × ℤ :=
  let m := (p - 1) / 2
  if p % 2 = 1 then (labelInit m, labelFinal m >>> (1 : ℕ)) else (labelFinal m >>> (1 : ℕ), labelFinal m)

theorem slotLabel_odd (m : ℕ) : slotLabel (2 * m + 1) = (labelInit m, labelFinal m >>> (1 : ℕ)) := by
  simp only [slotLabel, show (2 * m + 1 - 1) / 2 = m by omega, if_pos (show (2 * m + 1) % 2 = 1 by omega)]

theorem slotLabel_even (m : ℕ) : slotLabel (2 * m + 2) = (labelFinal m >>> (1 : ℕ), labelFinal m) := by
  simp only [slotLabel, show (2 * m + 2 - 1) / 2 = m by omega, if_neg (show ¬ (2 * m + 2) % 2 = 1 by omega)]

theorem intMul_labelInit (m : ℕ) : intMul (labelInit m) 10 = labelFinal m := by
  cases m with
  | zero => decide
  | succ m => rfl

theorem labelFinal_eq {m : ℕ} (h : m ≤ 8) : labelFinal m = (10 ^ (m + 1) : ℕ) := by
  induction m with
  | zero => rfl
  | succ m ih =>
    have hle : 10 ^ (m + 1 + 1) ≤ 10 ^ 9 := Nat.pow_le_pow_right (by decide) (by omega)
    have hten : ((10 ^ (m + 1) : ℕ) : ℤ) * 10 = (10 ^ (m + 1 + 1) : ℕ) := by
      rw [Nat.pow_succ 10 (m + 1)]
      norm_cast
    rw [labelFinal, ih (by omega), intMul_eq, hten]
    generalize 10 ^ (m + 1 + 1) = power at hle
    exact intWrap_of_lt (by omega) (by omega)

/-- **The label is the range**, as far as the products are `int`s. -/
theorem slotLabel_eq {p : ℕ} (hp : 1 ≤ p) (hp' : p ≤ 18) :
    slotLabel p = ((rangeStart p : ℤ), (rangeStart (p + 1) : ℤ)) := by
  have hhalf : ∀ m ≤ 8, labelFinal m >>> (1 : ℕ) = (5 * 10 ^ m : ℕ) := by
    intro m hm
    rw [labelFinal_eq hm, Int.shiftRight_eq_div_pow, Nat.pow_succ]
    norm_cast
    omega
  have hinit : ∀ m ≤ 8, labelInit m = (10 ^ m : ℕ) := by
    intro m hm
    cases m with
    | zero => rfl
    | succ m => exact labelFinal_eq (by omega)
  rcases Nat.even_or_odd' p with ⟨m, rfl | rfl⟩
  · obtain ⟨k, rfl⟩ : ∃ k, m = k + 1 := ⟨m - 1, by omega⟩
    rw [show 2 * (k + 1) = 2 * k + 2 by ring, slotLabel_even, rangeStart_even,
      show 2 * k + 2 + 1 = 2 * (k + 1) + 1 by ring,
      rangeStart_odd, hhalf k (by omega), labelFinal_eq (by omega)]
  · rw [slotLabel_odd, rangeStart_odd, show 2 * m + 1 + 1 = 2 * m + 2 by ring, rangeStart_even, hhalf m (by omega),
      hinit m (by omega)]

/-- Every label ends at an `int`. -/
theorem slotLabel_lt (p : ℕ) : (slotLabel p).2 < 2 ^ 31 := by
  have hfinal : ∀ m, labelFinal m < 2 ^ 31 := by
    intro m
    cases m with
    | zero => decide
    | succ m => exact (intWrap_lt _).2
  unfold slotLabel
  dsimp only
  split
  · have hlt := hfinal ((p - 1) / 2)
    show labelFinal ((p - 1) / 2) >>> (1 : ℕ) < 2 ^ 31
    rw [Int.shiftRight_eq_div_pow]
    omega
  · exact hfinal _

/-- The label of its slot contains the key. -/
def Labelled (key : UInt64) : Prop :=
  (slotLabel (arrPos key)).1 ≤ key.toNat ∧ (key.toNat : ℤ) < (slotLabel (arrPos key)).2

/-- **Which keys are in the range that their slot is printed with.** -/
theorem labelled_iff {key : UInt64} (h : key ≠ 0) : Labelled key ↔ key.toNat < 1410065408 := by
  unfold Labelled
  by_cases hsmall : key.toNat < 10 ^ 9
  · obtain ⟨hlo, hhi, hle⟩ := rangeStart_arrPos h hsmall
    rw [slotLabel_eq (arrPos_bounds h).1 hle]
    dsimp only
    exact ⟨fun _ => by omega, fun _ => ⟨by exact_mod_cast hlo, by exact_mod_cast hhi⟩⟩
  by_cases hint : key.toNat < 2 ^ 31
  · rw [arrPos_of_wrapped (not_lt.mp hsmall) (by omega)]
    split
    next hlt =>
      have hlabel : slotLabel 20 = (705032704, 1410065408) := by decide +kernel
      rw [hlabel]
      exact ⟨fun _ => hlt, fun _ => ⟨by omega, by omega⟩⟩
    next hge =>
      have hlabel : slotLabel 22 = (607876096, 1215752192) := by decide +kernel
      rw [hlabel]
      exact ⟨fun hin => by omega, fun hlt => absurd hlt hge⟩
  · have hlt := slotLabel_lt (arrPos key)
    exact ⟨fun hin => by omega, fun hless => by omega⟩

/-! ### What the loop prints -/

/-- The lines of the slots from number `p` on that are not empty. -/
def slotLines (slots : List UInt64) (p : ℕ) : List CumulLine :=
  (slots.zipIdx p).filterMap fun x => if x.1 = 0 then none else some (.range (slotLabel x.2).1 (slotLabel x.2).2 x.1)

theorem slotLines_cons (d : UInt64) (slots : List UInt64) (p : ℕ) : slotLines (d :: slots) p =
    (if d ≠ 0 then [.range (slotLabel p).1 (slotLabel p).2 d] else []) ++ slotLines slots (p + 1) := by
  rw [slotLines, List.zipIdx_cons, List.filterMap_cons]
  by_cases hd : d = 0
  · rw [if_pos hd, if_neg (not_not.mpr hd)]
    rfl
  · rw [if_neg hd, if_pos hd]
    rfl

theorem slotLines_eq_nil {slots : List UInt64} {p : ℕ} : slotLines slots p = [] ↔ ∀ d ∈ slots, d = 0 := by
  induction slots generalizing p with
  | nil => exact ⟨fun _ d hd => absurd hd List.not_mem_nil, fun _ => rfl⟩
  | cons d slots ih =>
    rw [slotLines_cons, List.append_eq_nil_iff, ih, List.forall_mem_cons]
    refine and_congr_left fun _ => ?_
    by_cases hd : d = 0
    · simp [hd]
    · simp [hd]

/-- **The loop prints every slot that is not empty with its label.** -/
theorem rangeLines_eq : ∀ (dups : List UInt64) (m : ℕ),
    rangeLines dups (labelInit m) (labelFinal m) = slotLines dups (2 * m + 1)
  | [], _ => rfl
  | [d], m => by
    rw [rangeLines, slotLines_cons, slotLabel_odd, slotLines, List.zipIdx_nil, List.filterMap_nil, List.append_nil]
  | d :: d' :: dups, m => by
    have hrest := rangeLines_eq dups (m + 1)
    rw [rangeLines, slotLines_cons, slotLines_cons, slotLabel_odd, slotLabel_even, intMul_labelInit, List.append_assoc]
    exact congrArg₂ _ rfl (congrArg₂ _ rfl hrest)

end Dedisbench
