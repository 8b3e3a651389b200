import Mathlib.Algebra.Order.Field.Power
import Mathlib.Data.Rat.Cast.Order
import Mathlib.Tactic.Linarith
import Mathlib.Tactic.NormNum
import Mathlib.Tactic.Positivity
import Mathlib.Tactic.Ring

/-!
# Products of doubles

A positive double that is not subnormal is a mantissa of 53 bits times a power of two (`Is`).  The product of two of
them is rounded to the nearest, so it does not go past a double that the exact product does not go past (`mul_le`).  An
integer of at most 53 bits is a double, and a factor of at most one does not make it more (`mul_ofNat_le`).
-/

namespace Doubles

open Float.Model Float.Model.UnpackedFloat

/-! ### Mantissa and exponent -/

/-- All of the 53 bits of the mantissa are there, and the exponent has its room. -/
structure Normal (m : ℕ) (e : ℤ) : Prop where
  low : 2 ^ 52 ≤ m
  high : m < 2 ^ 53
  exponent_low : -1074 ≤ e
  exponent_high : e ≤ 970

/-- What a mantissa and an exponent stand for. -/
def value (m : ℕ) (e : ℤ) : ℚ := m * 2 ^ e

/-- The double `x` is `m * 2 ^ e`. -/
structure Is (x : Float) (m : ℕ) (e : ℤ) : Prop where
  normal : Normal m e
  unpack : ∃ h, x.toModel.unpack = .finite .positive m e h

variable {m m' m₁ m₂ k n s : ℕ} {e e' e₁ e₂ : ℤ} {x y : Float}

theorem Normal.pos (h : Normal m e) : 0 < m := lt_of_lt_of_le (Nat.two_pow_pos 52) h.low

theorem Normal.log2 (h : Normal m e) : m.log2 = 52 := (Nat.log2_eq_iff h.pos.ne').mpr ⟨h.low, h.high⟩

theorem value_nonneg (m : ℕ) (e : ℤ) : 0 ≤ value m e := by
  unfold value
  positivity

theorem value_add (m s : ℕ) (e : ℤ) : value m (e + s) = m * 2 ^ s * 2 ^ e := by
  rw [value, zpow_add₀ two_ne_zero, zpow_natCast]
  ring

theorem value_mono (h : m ≤ m') : value m e ≤ value m' e := by
  have hcast : (m : ℚ) ≤ m' := by exact_mod_cast h
  exact mul_le_mul_of_nonneg_right hcast (by positivity)

/-- A greater exponent is a greater double. -/
theorem value_lt_value (h : Normal m e) (h' : Normal m' e') (he : e < e') : value m e < value m' e' := by
  have hm : (m : ℚ) < 2 ^ 53 := by exact_mod_cast h.high
  have hpow : (2 : ℚ) ^ (e + 1) ≤ 2 ^ e' := zpow_le_zpow_right₀ one_le_two he
  calc value m e < 2 ^ 53 * 2 ^ e := mul_lt_mul_of_pos_right hm (by positivity)
    _ = 2 ^ 52 * 2 ^ (e + 1) := by rw [zpow_add_one₀ two_ne_zero]; ring
    _ ≤ 2 ^ 52 * 2 ^ e' := mul_le_mul_of_nonneg_left hpow (by positivity)
    _ = value (2 ^ 52) e' := by rw [value, Nat.cast_pow, Nat.cast_ofNat]
    _ ≤ value m' e' := value_mono h'.low

theorem Normal.exponent_lt {b : ℤ} (h : Normal m e) (hlt : value m e < 2 ^ b) : e + 52 < b := by
  by_contra hge
  have hpow : (2 : ℚ) ^ b ≤ 2 ^ (e + (52 : ℕ)) := zpow_le_zpow_right₀ one_le_two (by omega)
  have hvalue : (2 : ℚ) ^ (e + (52 : ℕ)) ≤ value m e := by
    rw [zpow_add₀ two_ne_zero, zpow_natCast, mul_comm]
    refine le_trans (le_of_eq ?_) (value_mono h.low)
    rw [value, Nat.cast_pow, Nat.cast_ofNat]
  exact absurd (hpow.trans hvalue) (not_le.mpr hlt)

theorem unpackSign_packComponents {spec : Format} {sign : Sign} {exponent : BitVec spec.exponentBits}
    {mantissa : BitVec spec.mantissaBitsWithoutImplicit} :
    unpackSign (packComponents spec sign exponent mantissa) = sign.toBitVec := by
  ext i hi
  obtain rfl : i = 0 := by omega
  show (((sign.toBitVec ++ exponent ++ mantissa).extractLsb (spec.mantissaBitsWithoutImplicit + spec.exponentBits)
    (spec.mantissaBitsWithoutImplicit + spec.exponentBits)).cast (by omega))[0] = _
  simp [BitVec.getLsbD_append, BitVec.getElem_append]

/-- What is unpacked is neither zero nor infinite nor subnormal, if the bits of the exponent are neither all clear nor
all set. -/
theorem unpack_of_exponent {spec : Format} {b : BitVec spec.numBits} (hones : unpackExponent b ≠ -1#_)
    (hzero : unpackExponent b ≠ 0#_) : ∃ h, UnpackedFloat.unpack spec b =
      .finite (Sign.ofBitVec (unpackSign b)) (1#1 ++ unpackMantissa b).toNat
        ((unpackExponent b).toNat - (spec.exponentBias + spec.mantissaBitsWithoutImplicit)) h :=
  ⟨by simp, (if_neg hones).trans (if_neg hzero)⟩

theorem mantissaBits_binary64 : Format.binary64.mantissaBits = 53 := rfl

/-- Such a double is packed without loss. -/
theorem Normal.unpack_pack (h : Normal m e) (hm : 0 < m) :
    (Float.Model.pack (.finite .positive m e hm)).unpack = .finite .positive m e hm := by
  have hlow := h.low
  have hhigh := h.high
  have hbottom := h.exponent_low
  have htop := h.exponent_high
  obtain ⟨b, hb⟩ : ∃ b : ℕ, (b : ℤ) = e + 1075 := ⟨(e + 1075).toNat, by omega⟩
  have hexponent : (BitVec.ofNat 11 b).toNat = b := by
    rw [BitVec.toNat_ofNat, Nat.mod_eq_of_lt (by omega)]
  have hones : BitVec.ofNat 11 b ≠ -1#11 := fun heq => by
    have hval := congrArg BitVec.toNat heq
    rw [hexponent, show (-1#11).toNat = 2047 from rfl] at hval
    omega
  have hzero : BitVec.ofNat 11 b ≠ 0#11 := fun heq => by
    have hval := congrArg BitVec.toNat heq
    rw [hexponent, show (0#11).toNat = 0 from rfl] at hval
    omega
  have hmantissa : (1#1 ++ BitVec.ofNat 52 m).toNat = m := by
    rw [BitVec.toNat_append, ← Nat.shiftLeft_add_eq_or_of_lt (BitVec.isLt _), Nat.shiftLeft_eq, BitVec.toNat_ofNat,
      BitVec.toNat_ofNat]
    omega
  have hpack : UnpackedFloat.pack Format.binary64 (.finite .positive m e hm) =
      packComponents Format.binary64 .positive (BitVec.ofNat 11 b) (BitVec.ofNat 52 m) := by
    have hbias : (e + (1023 : ℕ) + (52 : ℕ)).toNat = b := by omega
    show (if 2 ^ 11 ≤ (e + (1023 : ℕ) + (52 : ℕ)).toNat + 1 then packedInfinity Format.binary64 .positive
      else if m.log2 + 1 = Format.binary64.mantissaBits then _ else _) = _
    rw [if_neg (by omega), if_pos (by rw [h.log2, mantissaBits_binary64])]
    exact congrArg (fun n => packComponents Format.binary64 .positive (BitVec.ofNat 11 n) (BitVec.ofNat 52 m)) hbias
  obtain ⟨_, hunpack⟩ := @unpack_of_exponent Format.binary64
    (packComponents Format.binary64 .positive (BitVec.ofNat 11 b) (BitVec.ofNat 52 m))
    (by rwa [unpackExponent_packComponents]) (by rwa [unpackExponent_packComponents])
  show UnpackedFloat.unpack Format.binary64 (UnpackedFloat.pack Format.binary64 (.finite .positive m e hm)) = _
  rw [hpack, hunpack, UnpackedFloat.finite.injEq, unpackSign_packComponents, unpackMantissa_packComponents,
    unpackExponent_packComponents]
  refine ⟨rfl, hmantissa, ?_⟩
  show ((BitVec.ofNat 11 b).toNat : ℤ) - ((1023 : ℕ) + (52 : ℕ)) = e
  rw [hexponent]
  omega

/-! ### Rounding -/

theorem shiftRight_mantissa (em : ExtendedMantissa) (s : ℕ) : (em >>> s).mantissa = em.mantissa / 2 ^ s := by
  induction s with
  | zero => exact (Nat.div_one _).symm
  | succ s ih =>
    show (em >>> s).mantissa / 2 = _
    rw [ih, Nat.div_div_eq_div_mul, Nat.pow_succ]

/-- What is shifted out is zero. -/
theorem shiftRight_mul (m s : ℕ) : (⟨m * 2 ^ s, false, false⟩ : ExtendedMantissa) >>> s = ⟨m, false, false⟩ := by
  induction s generalizing m with
  | zero => rw [Nat.pow_zero, Nat.mul_one]; rfl
  | succ s ih =>
    show ((⟨m * 2 ^ (s + 1), false, false⟩ : ExtendedMantissa) >>> s).shiftRightOne = _
    rw [Nat.pow_succ', ← Nat.mul_assoc, ih, ExtendedMantissa.shiftRightOne]
    simp

theorem roundedMantissa_bounds (em : ExtendedMantissa) :
    em.mantissa ≤ em.roundedMantissa ∧ em.roundedMantissa ≤ em.mantissa + 1 := by
  obtain ⟨m, r, t⟩ := em
  cases r <;> cases t <;>
    simp only [ExtendedMantissa.roundedMantissa, ExtendedMantissa.accuracy, Accuracy.roundToNearestEven] <;> omega

/-- An integer that the exact mantissa does not go past is not passed by the rounded one. -/
theorem roundedMantissa_le (h : k ≤ m * 2 ^ s) :
    ((⟨k, false, false⟩ : ExtendedMantissa) >>> s).roundedMantissa ≤ m := by
  have hbounds := roundedMantissa_bounds ((⟨k, false, false⟩ : ExtendedMantissa) >>> s)
  rw [shiftRight_mantissa] at hbounds
  dsimp only at hbounds
  have hle : k / 2 ^ s ≤ m := Nat.div_le_of_le_mul (by rwa [Nat.mul_comm])
  rcases eq_or_lt_of_le hle with heq | hlt
  · have hexact : k = m * 2 ^ s := le_antisymm h (heq ▸ Nat.div_mul_le_self k (2 ^ s))
    rw [hexact, shiftRight_mul]
    exact le_rfl
  · omega

/-- A mantissa of 53 bits is left as it is. -/
theorem Normal.shift (h : Normal m e) :
    shiftToTargetExponent Format.binary64 m e .exact = (⟨m, false, false⟩, e) := by
  have htarget : (Format.binary64.targetExponent (totalExponent m e) - e).toNat = 0 := by
    have hbottom := h.exponent_low
    rw [totalExponent, h.log2, Format.targetExponent, Format.minExponent, mantissaBits_binary64]
    norm_num
    omega
  rw [shiftToTargetExponent, shiftToExponent, htarget]
  simp only [Nat.cast_zero, add_zero]
  rfl

/-- With 54 bits, the last is dropped. -/
theorem shift_overflow (hbottom : -1074 ≤ e) :
    shiftToTargetExponent Format.binary64 (2 ^ 53) e .exact = (⟨2 ^ 52, false, false⟩, e + 1) := by
  have htarget : (Format.binary64.targetExponent (totalExponent (2 ^ 53) e) - e).toNat = 1 := by
    rw [totalExponent, Nat.log2_two_pow, Format.targetExponent, Format.minExponent, mantissaBits_binary64]
    norm_num
    omega
  rw [shiftToTargetExponent, shiftToExponent, htarget]
  rfl

/-- Rounding is a shift, and another of what is rounded. -/
theorem round_of_shifts {em em' : ExtendedMantissa} (h₁ : shiftToTargetExponent Format.binary64 k e .exact = (em, e₁))
    (hm : em.roundedMantissa = m) (h₂ : shiftToTargetExponent Format.binary64 m e₁ .exact = (em', e₂))
    (hpos : 0 < em'.mantissa) :
    roundWithAccuracy Format.binary64 .positive k e .exact = .finite .positive em'.mantissa e₂ hpos := by
  rw [roundWithAccuracy, h₁]
  dsimp only
  rw [hm, h₂]
  exact dif_neg hpos.ne'

theorem Normal.round (h : Normal m e) :
    roundWithAccuracy Format.binary64 .positive m e .exact = .finite .positive m e h.pos :=
  round_of_shifts h.shift rfl h.shift h.pos

/-- The bits of a product, but for the first 53, are shifted out. -/
theorem exists_shift (hlow : 2 ^ 104 ≤ k) (hhigh : k < 2 ^ 106) (hbottom : -1126 ≤ e) (htop : e ≤ 900) :
    ∃ s : ℕ, shiftToTargetExponent Format.binary64 k e .exact =
      ((⟨k, false, false⟩ : ExtendedMantissa) >>> s, e + s) ∧ 52 ≤ s ∧ s ≤ 53 ∧ Normal (k / 2 ^ s) (e + s) := by
  have hk : k ≠ 0 := by omega
  have hlog : 104 ≤ k.log2 := (Nat.le_log2 hk).mpr hlow
  have hlog' : k.log2 < 106 := (Nat.log2_lt hk).mpr hhigh
  obtain ⟨s, hs⟩ : ∃ s, k.log2 = 52 + s := ⟨k.log2 - 52, by omega⟩
  have htarget : (Format.binary64.targetExponent (totalExponent k e) - e).toNat = s := by
    rw [totalExponent, hs, Format.targetExponent, Format.minExponent, mantissaBits_binary64]
    norm_num
    omega
  refine ⟨s, ?_, by omega, by omega, ?_, ?_, by omega, by omega⟩
  · rw [shiftToTargetExponent, shiftToExponent, htarget]
    rfl
  · rw [Nat.le_div_iff_mul_le (Nat.two_pow_pos s), ← Nat.pow_add, ← hs]
    exact Nat.log2_self_le hk
  · rw [Nat.div_lt_iff_lt_mul (Nat.two_pow_pos s), ← Nat.pow_add, show 53 + s = k.log2 + 1 by omega]
    exact Nat.lt_log2_self

/-- **A product is rounded to a double**, and not past one that it does not go past itself. -/
theorem round_le (hlow : 2 ^ 104 ≤ k) (hhigh : k < 2 ^ 106) (hbottom : -1126 ≤ e) (htop : e ≤ 900) :
    ∃ m e₁ h, roundWithAccuracy Format.binary64 .positive k e .exact = .finite .positive m e₁ h ∧
      Normal m e₁ ∧ e + 52 ≤ e₁ ∧ ∀ m' e', Normal m' e' → value k e ≤ value m' e' → value m e₁ ≤ value m' e' := by
  obtain ⟨s, hshift, hs, hs', hquot⟩ := exists_shift hlow hhigh hbottom htop
  generalize hr : ((⟨k, false, false⟩ : ExtendedMantissa) >>> s).roundedMantissa = r
  have hbounds := roundedMantissa_bounds ((⟨k, false, false⟩ : ExtendedMantissa) >>> s)
  rw [shiftRight_mantissa, hr] at hbounds
  dsimp only at hbounds
  have hquotLow := hquot.low
  have hquotHigh := hquot.high
  -- a double that is not passed has no lower exponent, and with the same one at least the rounded mantissa
  have hexponent : ∀ m' e', Normal m' e' → value k e ≤ value m' e' → e + s ≤ e' := by
    intro m' e' h' hle
    by_contra hlt
    have hvalue : value (k / 2 ^ s) (e + s) ≤ value k e := by
      have hdiv : ((k / 2 ^ s : ℕ) : ℚ) * 2 ^ s ≤ k := by exact_mod_cast Nat.div_mul_le_self k (2 ^ s)
      rw [value_add, value]
      exact mul_le_mul_of_nonneg_right hdiv (by positivity)
    exact absurd (hvalue.trans hle) (not_le.mpr (value_lt_value h' hquot (by omega)))
  have hmantissa : ∀ m', value k e ≤ value m' (e + s) → r ≤ m' := by
    intro m' hle
    rw [value_add] at hle
    have hle : (k : ℚ) ≤ m' * 2 ^ s := le_of_mul_le_mul_right hle (by positivity)
    exact hr ▸ roundedMantissa_le (by exact_mod_cast hle)
  rcases Nat.lt_or_ge r (2 ^ 53) with hlt | hge
  · have hnormal : Normal r (e + s) := ⟨hquotLow.trans hbounds.1, hlt, hquot.exponent_low, hquot.exponent_high⟩
    refine ⟨r, e + s, hnormal.pos, ?_, hnormal, by omega, fun m' e' h' hle => ?_⟩
    · exact round_of_shifts hshift hr hnormal.shift hnormal.pos
    · rcases eq_or_lt_of_le (hexponent m' e' h' hle) with rfl | hlt'
      · exact value_mono (hmantissa m' hle)
      · exact (value_lt_value hnormal h' hlt').le
  · obtain rfl : r = 2 ^ 53 := by omega
    have hnormal : Normal (2 ^ 52) (e + s + 1) := ⟨le_rfl, by norm_num, by omega, by omega⟩
    refine ⟨2 ^ 52, e + s + 1, by norm_num, ?_, hnormal, by omega, fun m' e' h' hle => ?_⟩
    · exact round_of_shifts hshift hr (shift_overflow hquot.exponent_low) (by norm_num)
    · rcases eq_or_lt_of_le (hexponent m' e' h' hle) with rfl | hlt'
      · have hhigh' := h'.high
        have hr' := hmantissa m' hle
        omega
      · rcases eq_or_lt_of_le (Int.add_one_le_iff.mpr hlt') with rfl | hlt''
        · exact value_mono h'.low
        · exact (value_lt_value hnormal h' hlt'').le

/-! ### Products -/

/-- **The product of two doubles.** -/
theorem mul_le (hx : Is x m₁ e₁) (hy : Is y m₂ e₂) (hbottom : -1126 ≤ e₁ + e₂) (htop : e₁ + e₂ ≤ 900) :
    ∃ m e, Is (x * y) m e ∧ e₁ + e₂ + 52 ≤ e ∧
      ∀ m' e', Normal m' e' → value m₁ e₁ * value m₂ e₂ ≤ value m' e' → value m e ≤ value m' e' := by
  have hlow : 2 ^ 52 * 2 ^ 52 ≤ m₁ * m₂ := Nat.mul_le_mul hx.normal.low hy.normal.low
  have hhigh : m₁ * m₂ < 2 ^ 53 * 2 ^ 53 := Nat.mul_lt_mul'' hx.normal.high hy.normal.high
  obtain ⟨m, e, h, hround, hnormal, hle, hbound⟩ := round_le hlow hhigh hbottom htop
  obtain ⟨_, hxu⟩ := hx.unpack
  obtain ⟨_, hyu⟩ := hy.unpack
  refine ⟨m, e, ⟨hnormal, h, ?_⟩, hle, fun m' e' h' hprod => hbound m' e' h' ?_⟩
  · have hmul : UnpackedFloat.mul Format.binary64 x.toModel.unpack y.toModel.unpack = .finite .positive m e h := by
      rw [hxu, hyu]
      exact hround
    show (Float.Model.pack (UnpackedFloat.mul Format.binary64 x.toModel.unpack y.toModel.unpack)).unpack = _
    rw [hmul, hnormal.unpack_pack]
  · rwa [value, Nat.cast_mul, zpow_add₀ two_ne_zero, mul_mul_mul_comm]

/-- An integer, with all the bits of a mantissa. -/
theorem exists_normal (hpos : 0 < n) (hlt : n < 2 ^ 53) :
    ∃ j : ℕ, Normal (n * 2 ^ j) (-j) ∧ n.log2 + j = 52 ∧ value (n * 2 ^ j) (-j) = n := by
  have hlog : n.log2 < 53 := (Nat.log2_lt hpos.ne').mpr hlt
  obtain ⟨j, hj⟩ : ∃ j, n.log2 + j = 52 := ⟨52 - n.log2, by omega⟩
  refine ⟨j, ⟨?_, ?_, by omega, by omega⟩, hj, ?_⟩
  · calc 2 ^ 52 = 2 ^ n.log2 * 2 ^ j := by rw [← Nat.pow_add, hj]
      _ ≤ n * 2 ^ j := Nat.mul_le_mul_right _ (Nat.log2_self_le hpos.ne')
  · calc n * 2 ^ j < 2 ^ (n.log2 + 1) * 2 ^ j := Nat.mul_lt_mul_of_pos_right Nat.lt_log2_self (Nat.two_pow_pos j)
      _ = 2 ^ 53 := by rw [← Nat.pow_add, show n.log2 + 1 + j = 53 by omega]
  · rw [value, Nat.cast_mul, Nat.cast_pow, Nat.cast_ofNat, zpow_neg, zpow_natCast, mul_assoc,
      mul_inv_cancel₀ (by positivity), mul_one]

theorem is_toFloat {j : ℕ} (hlt : n < 2 ^ 53) (hpos : 0 < n) (hj : n.log2 + j = 52)
    (hnormal : Normal (n * 2 ^ j) (-j)) : Is n.toUInt64.toFloat (n * 2 ^ j) (-j) := by
  refine ⟨hnormal, hnormal.pos, ?_⟩
  have hnat : n.toUInt64.toNat = n := by
    rw [Nat.toUInt64, UInt64.toNat_ofNat', Nat.mod_eq_of_lt (by omega)]
  have htarget : (0 - Format.binary64.targetExponent (totalExponent n 0)).toNat = j := by
    rw [totalExponent, Format.targetExponent, Format.minExponent, mantissaBits_binary64]
    norm_num
    omega
  have hround : UnpackedFloat.ofUInt64 Format.binary64 n.toUInt64 = .finite .positive (n * 2 ^ j) (-j) hnormal.pos := by
    have hgt : compare (n : ℤ) 0 = .gt := compare_gt_iff_gt.mpr (by omega)
    have hdecrease : decreaseExponent n 0 (Format.binary64.targetExponent (totalExponent n 0)) =
        (n * 2 ^ j, -(j : ℤ)) := by
      rw [decreaseExponent, htarget, Nat.shiftLeft_eq, zero_sub]
    rw [UnpackedFloat.ofUInt64, UnpackedFloat.ofNat, UnpackedFloat.ofInt, hnat, UnpackedFloat.normalize, hgt]
    dsimp only
    rw [Int.toNat_natCast, UnpackedFloat.round, hdecrease]
    exact hnormal.round
  show (Float.Model.pack (UnpackedFloat.ofUInt64 Format.binary64 n.toUInt64)).unpack = _
  rw [hround, hnormal.unpack_pack]

theorem is_one : Is (Float.ofBits 0x3FF0000000000000) (2 ^ 52) (-52) :=
  ⟨⟨le_rfl, by norm_num, by norm_num, by norm_num⟩, by norm_num, rfl⟩

theorem ofNat_eq (hlt : n < 2 ^ 53) : Float.ofNat n = n.toUInt64.toFloat * Float.ofBits 0x3FF0000000000000 :=
  dif_pos ⟨hlt, Nat.zero_le 22⟩

/-- An integer of 53 bits at most as a double, which is no more. -/
theorem is_ofNat (hpos : 0 < n) (hlt : n < 2 ^ 53) :
    ∃ m e, Is (Float.ofNat n) m e ∧ -52 ≤ e ∧ e ≤ 0 ∧ value m e ≤ n := by
  obtain ⟨j, hnormal, hj, hvalue⟩ := exists_normal hpos hlt
  obtain ⟨m, e, his, he, hbound⟩ := mul_le (is_toFloat hlt hpos hj hnormal) is_one (by omega) (by omega)
  have hle : value m e ≤ n := by
    rw [← hvalue]
    refine hbound _ _ hnormal (mul_le_of_le_one_right (value_nonneg _ _) ?_)
    rw [value]
    norm_num
  rw [ofNat_eq hlt]
  refine ⟨m, e, his, by omega, ?_, hle⟩
  have hbits : (n : ℚ) < 2 ^ (53 : ℤ) := by exact_mod_cast hlt
  have hexponent := his.normal.exponent_lt (hle.trans_lt hbits)
  omega

/-! ### Truncation -/

theorem roundToInt_eq (m k : ℕ) : roundToInt .positive m (-k) = (m / 2 ^ k : ℕ) := by
  have hdecrease : decreaseExponent m (-k) 0 = (m, -(k : ℤ)) := by
    rw [decreaseExponent, show (-(k : ℤ) - 0).toNat = 0 by omega]
    simp
  have hshift : (0 - -(k : ℤ)).toNat = k := by omega
  simp only [roundToInt, hdecrease, shiftToExponent, hshift, shiftRight_mantissa]
  rfl

/-- A double that is no more than an integer of 32 bits is converted to one, and is no more then. -/
theorem toUInt32_le (h : Is x m e) (hle : value m e ≤ n) (hn : n < 2 ^ 32) :
    -1 < x ∧ x < 4294967296 ∧ x.toUInt32.toNat ≤ n := by
  obtain ⟨hm, hu⟩ := h.unpack
  have hbits : (n : ℚ) < 2 ^ (32 : ℤ) := by exact_mod_cast hn
  have hexponent := h.normal.exponent_lt (hle.trans_lt hbits)
  refine ⟨decide_eq_true ?_, decide_eq_true ?_, ?_⟩
  · have hneg : ∃ h, (-1 : Float).toModel.unpack = .finite .negative (2 ^ 52) (-52) h := ⟨by norm_num, rfl⟩
    obtain ⟨_, hneg⟩ := hneg
    show UnpackedFloat.lt (-1 : Float).toModel.unpack x.toModel.unpack = true
    rw [hneg, hu]
    rfl
  · have hmax : ∃ h, (4294967296 : Float).toModel.unpack = .finite .positive (2 ^ 52) (-20) h := ⟨by norm_num, rfl⟩
    obtain ⟨_, hmax⟩ := hmax
    have hcompare : compare e (-20) = .lt := compare_lt_iff_lt.mpr (by omega)
    show UnpackedFloat.lt x.toModel.unpack (4294967296 : Float).toModel.unpack = true
    rw [hmax, hu]
    show (some ((compare e (-20)).then (compare m (2 ^ 52))) == some Ordering.lt) = true
    rw [hcompare]
    rfl
  · obtain ⟨k, rfl⟩ : ∃ k : ℕ, e = -k := ⟨(-e).toNat, by omega⟩
    have hdiv : m / 2 ^ k ≤ n := by
      rw [value, zpow_neg, zpow_natCast, ← div_eq_mul_inv, div_le_iff₀ (by positivity)] at hle
      exact Nat.div_le_of_le_mul (by rw [Nat.mul_comm]; exact_mod_cast hle)
    show (UInt32.ofNatClamp (UnpackedFloat.toInt 0 (UInt32.size - 1) x.toModel.unpack).toNat).toNat ≤ n
    have hsize : m / 2 ^ k < UInt32.size := hdiv.trans_lt hn
    rw [hu]
    show (UInt32.ofNatClamp (roundToInt .positive m (-k)).toNat).toNat ≤ n
    rw [roundToInt_eq, Int.toNat_natCast, UInt32.ofNatClamp, dif_pos hsize]
    exact hdiv

/-- **A factor of at most one** does not make an integer of 32 bits more. -/
theorem mul_ofNat_le (h : Is x m e) (hbottom : -1000 ≤ e) (hone : value m e ≤ 1) (hn : n < 2 ^ 32) :
    -1 < x * Float.ofNat n ∧ x * Float.ofNat n < 4294967296 ∧ (x * Float.ofNat n).toUInt32.toNat ≤ n := by
  have hone' : value m e < 2 ^ (1 : ℤ) := hone.trans_lt (by norm_num)
  have htop := h.normal.exponent_lt hone'
  rcases Nat.eq_zero_or_pos n with rfl | hpos
  · obtain ⟨_, hu⟩ := h.unpack
    have hmul : (x * Float.ofNat 0).toModel.unpack = .zero .positive := by
      have hzero : (Float.ofNat 0).toModel.unpack = .zero .positive := rfl
      show (Float.Model.pack
        (UnpackedFloat.mul Format.binary64 x.toModel.unpack (Float.ofNat 0).toModel.unpack)).unpack = _
      have hmul : UnpackedFloat.mul Format.binary64 x.toModel.unpack (.zero .positive) = .zero .positive := by
        rw [hu]
        rfl
      rw [hzero, hmul]
      rfl
    refine ⟨decide_eq_true ?_, decide_eq_true ?_, ?_⟩
    · show UnpackedFloat.lt (-1 : Float).toModel.unpack (x * Float.ofNat 0).toModel.unpack = true
      rw [hmul]
      rfl
    · show UnpackedFloat.lt (x * Float.ofNat 0).toModel.unpack (4294967296 : Float).toModel.unpack = true
      rw [hmul]
      rfl
    · show (UnpackedFloat.toUInt32 (x * Float.ofNat 0).toModel.unpack).toNat ≤ 0
      rw [hmul]
      rfl
  · have hlt : n < 2 ^ 53 := by omega
    obtain ⟨m', e', his, hlow, hhigh, hvalue⟩ := is_ofNat hpos hlt
    obtain ⟨j, hnormal, -, hexact⟩ := exists_normal hpos hlt
    obtain ⟨m'', e'', hprod, -, hbound⟩ := mul_le h his (by omega) (by omega)
    refine toUInt32_le hprod (hexact ▸ hbound _ _ hnormal ?_) hn
    calc value m e * value m' e' ≤ 1 * value m' e' := mul_le_mul_of_nonneg_right hone (value_nonneg _ _)
      _ ≤ n := by rwa [one_mul]
      _ = value (n * 2 ^ j) (-j) := hexact.symm

/-! ### Doubles up to one -/

/-- The double is at most one, and not too small for its products. -/
def upToOne (x : Float) : Bool :=
  match x.toModel.unpack with
  | .finite .positive m e _ => 2 ^ 52 ≤ m && m < 2 ^ 53 && -1000 ≤ e && (e < -52 || (e = -52 && m = 2 ^ 52))
  | _ => false

theorem exists_of_upToOne (h : upToOne x = true) : ∃ m e, Is x m e ∧ -1000 ≤ e ∧ value m e ≤ 1 := by
  have hone : value (2 ^ 52) (-52) = 1 := by
    rw [value]
    norm_num
  unfold upToOne at h
  split at h
  next m e hm hu =>
    simp only [Bool.and_eq_true, Bool.or_eq_true, decide_eq_true_eq] at h
    obtain ⟨⟨⟨hlow, hhigh⟩, hbottom⟩, htop⟩ := h
    have hnormal : Normal m e := ⟨hlow, hhigh, by omega, by omega⟩
    refine ⟨m, e, ⟨hnormal, hm, hu⟩, hbottom, ?_⟩
    rcases htop with hlt | ⟨rfl, rfl⟩
    · rw [← hone]
      exact (value_lt_value hnormal is_one.normal hlt).le
    · exact hone.le
  next => cases h

end Doubles
