import Mathlib.Tactic.IntervalCases
import Dedisbench.Lib.XorShift
import Dedisbench.Random.Stream

/-!
# The seed of the generator

`init_gen_rand` and `init_by_array` fill the state, and `period_certification` then sees to it that the parity check
comes out as one.  The words of a sequence decide those before them, too (`reversible`), and the second word that
`init_gen_rand` fills in decides the seed: so different seeds give different numbers.
-/

namespace Dedisbench

namespace Sfmt

open Lagged ExceptRun XorShift

/-! ### Going back -/

section Join

variable {hi hi' lo lo' : UInt32}

theorem getLsbD_join (hi lo : UInt32) (i : ℕ) : (join hi lo).toBitVec.getLsbD i =
    if i < 32 then lo.toBitVec.getLsbD i else hi.toBitVec.getLsbD (i - 32) := by
  have hbits : (join hi lo).toBitVec = hi.toBitVec.setWidth 64 <<< 32 ||| lo.toBitVec.setWidth 64 := rfl
  rw [hbits, BitVec.getLsbD_or, BitVec.getLsbD_shiftLeft, BitVec.getLsbD_setWidth, BitVec.getLsbD_setWidth]
  rcases Nat.lt_or_ge i 32 with hlt | hge
  · have h64 : i < 64 := by omega
    simp [hlt, h64]
  · rw [BitVec.getLsbD_of_ge lo.toBitVec i hge]
    rcases Nat.lt_or_ge i 64 with h64 | h64
    · have hsub : i - 32 < 64 := by omega
      simp [Nat.not_lt.mpr hge, h64, hsub]
    · rw [BitVec.getLsbD_of_ge hi.toBitVec (i - 32) (by omega)]
      simp [Nat.not_lt.mpr hge]

theorem join_inj (h : join hi lo = join hi' lo') : hi = hi' ∧ lo = lo' := by
  have hbit : ∀ i, (join hi lo).toBitVec.getLsbD i = (join hi' lo').toBitVec.getLsbD i := fun i => by rw [h]
  constructor
  · apply UInt32.toBitVec_inj.mp
    apply BitVec.eq_of_getLsbD_eq
    intro i hlt
    have hi' := hbit (i + 32)
    rwa [getLsbD_join, getLsbD_join, if_neg (by omega), if_neg (by omega), Nat.add_sub_cancel] at hi'
  · apply UInt32.toBitVec_inj.mp
    apply BitVec.eq_of_getLsbD_eq
    intro i hlt
    have hi' := hbit i
    rwa [getLsbD_join, getLsbD_join, if_pos hlt, if_pos hlt] at hi'

theorem join_xor (hi lo hi' lo' : UInt32) : join (hi ^^^ hi') (lo ^^^ lo') = join hi lo ^^^ join hi' lo' := by
  apply UInt64.toBitVec_inj.mp
  apply BitVec.eq_of_getLsbD_eq
  intro i _
  rw [UInt64.toBitVec_xor, BitVec.getLsbD_xor, getLsbD_join, getLsbD_join, getLsbD_join]
  split <;> rw [UInt32.toBitVec_xor, BitVec.getLsbD_xor]

/-- A word of 64 bits, put together from its halves. -/
theorem join_halves (x : UInt64) : join (x >>> 32).toUInt32 x.toUInt32 = x := by
  apply UInt64.toBitVec_inj.mp
  apply BitVec.eq_of_getLsbD_eq
  intro i h64
  have hlow : x.toUInt32.toBitVec = x.toBitVec.setWidth 32 := rfl
  have hhigh : (x >>> 32).toUInt32.toBitVec = (x.toBitVec >>> 32).setWidth 32 := rfl
  rw [getLsbD_join, hlow, hhigh, BitVec.getLsbD_setWidth, BitVec.getLsbD_setWidth, BitVec.getLsbD_ushiftRight]
  rcases Nat.lt_or_ge i 32 with hlt | hge
  · simp [hlt]
  · have hsub : i - 32 < 32 := by omega
    have hadd : 32 + (i - 32) = i := by omega
    simp [Nat.not_lt.mpr hge, hsub, hadd]

end Join

theorem lshift128_low (a : W128) : join (lshift128 a sl2).u1 (lshift128 a sl2).u0 = join a.u1 a.u0 <<< 8 :=
  join_halves _

theorem lshift128_high (a : W128) : join (lshift128 a sl2).u3 (lshift128 a sl2).u2 =
    join a.u3 a.u2 <<< 8 ||| join a.u1 a.u0 >>> 56 := join_halves _

theorem toBitVec_shiftLeft_eight (x : UInt64) : (x <<< 8).toBitVec = x.toBitVec <<< 8 := by
  rw [UInt64.toBitVec_shiftLeft]
  rfl

/-- A word and its shift to the left, added up. -/
def mixed (a : W128) : W128 :=
  let x := lshift128 a sl2
  ⟨a.u0 ^^^ x.u0, a.u1 ^^^ x.u1, a.u2 ^^^ x.u2, a.u3 ^^^ x.u3⟩

theorem mixed_low (a : W128) : (join (mixed a).u1 (mixed a).u0).toBitVec =
    (join a.u1 a.u0).toBitVec ^^^ (join a.u1 a.u0).toBitVec <<< 8 := by
  simp only [mixed, join_xor, lshift128_low, UInt64.toBitVec_xor, toBitVec_shiftLeft_eight]

theorem mixed_high (a : W128) : (join (mixed a).u3 (mixed a).u2).toBitVec =
    (join a.u3 a.u2).toBitVec ^^^ ((join a.u3 a.u2).toBitVec <<< 8 ||| (join a.u1 a.u0 >>> 56).toBitVec) := by
  simp only [mixed, join_xor, lshift128_high, UInt64.toBitVec_xor, UInt64.toBitVec_or, toBitVec_shiftLeft_eight]

theorem mixed_injective : Function.Injective mixed := by
  intro a a' h
  -- the lower half first: it does not depend on the upper one
  have htl : join a.u1 a.u0 = join a'.u1 a'.u0 := by
    have heq := mixed_low a
    rw [h, mixed_low a'] at heq
    exact UInt64.toBitVec_inj.mp (xor_shiftLeft_injective (Nat.succ_pos 7) heq.symm)
  have hth : join a.u3 a.u2 = join a'.u3 a'.u2 := by
    have heq := mixed_high a
    rw [h, mixed_high a', ← htl] at heq
    exact UInt64.toBitVec_inj.mp (xor_shiftLeft_or_injective (Nat.succ_pos 7) _ heq.symm)
  obtain ⟨h1, h0⟩ := join_inj htl
  obtain ⟨h3, h2⟩ := join_inj hth
  exact W128.ext h0 h1 h2 h3

/-- **The oldest word can be told from the new one** and the others that it is made of. -/
theorem doRecursion_injective {a a' b c d : W128} (h : doRecursion a b c d = doRecursion a' b c d) : a = a' := by
  apply mixed_injective
  simp only [doRecursion, W128.mk.injEq, UInt32.xor_left_inj] at h
  simp only [mixed, W128.mk.injEq]
  exact h

theorem reversible : recurrence.Reversible 0 where
  lag_zero := rfl
  lag_pos := by
    intro j hj
    revert j
    decide
  injective := by
    intro t t' hrest h
    have h1 := hrest 1 (by decide)
    have h2 := hrest 2 (by decide)
    have h3 := hrest 3 (by decide)
    simp only [recurrence, h1, h2, h3] at h
    exact doRecursion_injective h

/-! ### The state as words of 32 bits -/

section Flat

variable {sfmt sfmt' : List W128} {i j : ℕ} {v : UInt32}

/-- The word at `i` of `psfmt32`. -/
def flat (sfmt : List W128) (i : ℕ) : Option UInt32 := (sfmt[i / 4]?).map fun x => x.u i

theorem u_setU (x : W128) (i j : ℕ) (v : UInt32) : (x.setU i v).u j = if j % 4 = i % 4 then v else x.u j := by
  have hi := Nat.mod_lt i (show 0 < 4 by decide)
  have hj := Nat.mod_lt j (show 0 < 4 by decide)
  unfold W128.setU W128.u
  interval_cases i % 4 <;> interval_cases j % 4 <;> rfl

theorem psfmt32_eq_ok : psfmt32 sfmt i = .ok v ↔ flat sfmt i = some v := by
  rw [psfmt32, bind_eq_ok, flat, Option.map_eq_some_iff]
  simp only [arrayAt_eq_ok, Except.ok.injEq]

theorem exists_flat (h : i < 4 * sfmt.length) : ∃ v, flat sfmt i = some v := by
  have hlt : i / 4 < sfmt.length := by omega
  exact ⟨_, by rw [flat, List.getElem?_eq_getElem hlt]; rfl⟩

/-- The state after a write of `v` to the word at `i`. -/
structure FlatSet (sfmt sfmt' : List W128) (i : ℕ) (v : UInt32) : Prop where
  length : sfmt'.length = sfmt.length
  new : flat sfmt' i = some v
  keep : ∀ j, j ≠ i → flat sfmt' j = flat sfmt j

theorem exists_setPsfmt32 (h : i < 4 * sfmt.length) (v : UInt32) :
    ∃ sfmt', setPsfmt32 sfmt i v = .ok sfmt' ∧ FlatSet sfmt sfmt' i v := by
  have hlt : i / 4 < sfmt.length := by omega
  have hx : sfmt[i / 4]? = some sfmt[i / 4] := List.getElem?_eq_getElem hlt
  refine ⟨sfmt.set (i / 4) (sfmt[i / 4].setU i v), ?_, by simp, ?_, fun j hj => ?_⟩
  · rw [setPsfmt32, arrayAt_eq_ok.mpr hx, bind_ok, arraySet_ok hlt]
  · rw [flat, List.getElem?_set_self hlt, Option.map_some, u_setU, if_pos rfl]
  · rw [flat, flat, List.getElem?_set]
    split
    next heq =>
      rw [Option.map_some, u_setU, if_neg (by omega), ← heq, hx, Option.map_some]
    next => rfl

end Flat

/-! ### The parity check -/

/-- The bits of a word that the parity check takes, added up. -/
def checkSum (x : UInt32) (i : ℕ) : Bool := sumBits (x &&& parity.u i).toBitVec.getLsbD 32

/-- The parity check of the state: the sum of the bits that it takes of the first four words. -/
def innerProduct (sfmt : List W128) : Option Bool := do
  let x₀ ← flat sfmt 0
  let x₁ ← flat sfmt 1
  let x₂ ← flat sfmt 2
  let x₃ ← flat sfmt 3
  some (checkSum x₀ 0 ^^ checkSum x₁ 1 ^^ checkSum x₂ 2 ^^ checkSum x₃ 3)

theorem sumBits_xor_toBitVec (x y : BitVec 32) :
    sumBits (x ^^^ y).getLsbD 32 = (sumBits x.getLsbD 32 ^^ sumBits y.getLsbD 32) := by
  rw [← sumBits_xor]
  exact sumBits_congr fun i _ => BitVec.getLsbD_xor

/-- **The lowest bit of the folded word** is the sum of its bits. -/
theorem foldInner_bit (x : BitVec 32) : (foldInner x).getLsbD 0 = sumBits x.getLsbD 32 := by
  have hone : ∀ f, sumBits f 1 = f 0 := fun f => Bool.false_xor (f 0)
  rw [← hone (foldInner x).getLsbD, foldInner]
  simp only [List.foldl_cons, List.foldl_nil]
  rw [sumBits_fold _ (by decide), sumBits_fold _ (by decide), sumBits_fold _ (by decide), sumBits_fold _ (by decide),
    sumBits_fold _ (by decide)]

theorem and_one_eq_one_iff (x : BitVec 32) : x &&& 1 = 1 ↔ x.getLsbD 0 = true := by
  constructor
  · intro h
    have hbit := congrArg (fun y => BitVec.getLsbD y 0) h
    simpa [BitVec.getLsbD_and] using hbit
  · intro h
    apply BitVec.eq_of_getLsbD_eq
    intro i hi
    rw [BitVec.getLsbD_and]
    cases i with
    | zero => simp [h]
    | succ i => simp [BitVec.getLsbD_one]

/-- The bit that `period_certification` changes: the lowest of all. -/
theorem checkBit_eq : checkBit = some (0, 1) := by decide +kernel

theorem checkSum_xor_one (x : UInt32) : checkSum (x ^^^ 1) 0 = !checkSum x 0 := by
  have hmask : ((x ^^^ 1) &&& parity.u 0).toBitVec = (x &&& parity.u 0).toBitVec ^^^ (1#32) := by
    apply BitVec.eq_of_getLsbD_eq
    intro i _
    have hone : parity.u 0 = 1 := rfl
    rw [hone, UInt32.toBitVec_and, UInt32.toBitVec_xor, UInt32.toBitVec_and]
    simp only [BitVec.getLsbD_and, BitVec.getLsbD_xor]
    cases h : x.toBitVec.getLsbD i <;> cases h' : BitVec.getLsbD (1#32) i <;> simp_all
  have hone : sumBits (1#32).getLsbD 32 = true := by decide
  rw [checkSum, checkSum, hmask, sumBits_xor_toBitVec, hone, Bool.xor_true]

theorem exists_innerProduct {sfmt : List W128} (hlen : sfmt.length = n) : ∃ p, innerProduct sfmt = some p := by
  have hN : n = 156 := rfl
  obtain ⟨x₀, h₀⟩ := exists_flat (show 0 < 4 * sfmt.length by omega)
  obtain ⟨x₁, h₁⟩ := exists_flat (show 1 < 4 * sfmt.length by omega)
  obtain ⟨x₂, h₂⟩ := exists_flat (show 2 < 4 * sfmt.length by omega)
  obtain ⟨x₃, h₃⟩ := exists_flat (show 3 < 4 * sfmt.length by omega)
  simp only [innerProduct, h₀, h₁, h₂, h₃, Option.bind_eq_bind, Option.bind_some, Option.some.injEq, exists_eq']

/-- **`period_certification` leaves a state that passes the parity check alone**; in another one it flips the lowest bit
of the first word. -/
theorem periodCertification_eq {sfmt : List W128} {p : Bool} {x₀ : UInt32} (hp : innerProduct sfmt = some p)
    (h₀ : flat sfmt 0 = some x₀) :
    periodCertification sfmt = if p = true then .ok sfmt else setPsfmt32 sfmt 0 (x₀ ^^^ 1) := by
  have hrange : List.range 4 = [0, 1, 2, 3] := rfl
  simp only [innerProduct, h₀, Option.bind_eq_bind, Option.bind_some, Option.bind_eq_some_iff] at hp
  obtain ⟨x₁, h₁, x₂, h₂, x₃, h₃, hp⟩ := hp
  have hsum : ∀ sum : BitVec 32, sum = 0 ^^^ (x₀ &&& parity.u 0).toBitVec ^^^ (x₁ &&& parity.u 1).toBitVec ^^^
      (x₂ &&& parity.u 2).toBitVec ^^^ (x₃ &&& parity.u 3).toBitVec →
      (foldInner sum &&& 1 = 1 ↔ p = true) := by
    rintro _ rfl
    rw [and_one_eq_one_iff, foldInner_bit, ← Option.some.inj hp]
    simp only [sumBits_xor_toBitVec, checkSum]
    rw [show sumBits (0 : BitVec 32).getLsbD 32 = false by decide, Bool.false_xor]
  rw [periodCertification, hrange]
  simp only [List.foldlM_cons, List.foldlM_nil, psfmt32_eq_ok.mpr h₀, psfmt32_eq_ok.mpr h₁, psfmt32_eq_ok.mpr h₂,
    psfmt32_eq_ok.mpr h₃, bind_ok, checkBit_eq]
  exact if_congr (hsum _ rfl) rfl rfl

/-- **After `period_certification` the parity check comes out as one**; at most the lowest bit of the first word has
been changed for it. -/
theorem periodCertification_spec {sfmt : List W128} (hlen : sfmt.length = n) :
    ∃ sfmt', periodCertification sfmt = .ok sfmt' ∧ sfmt'.length = n ∧ innerProduct sfmt' = some true ∧
      (∀ i, 1 ≤ i → flat sfmt' i = flat sfmt i) ∧
      ∀ x, flat sfmt 0 = some x → flat sfmt' 0 = some x ∨ flat sfmt' 0 = some (x ^^^ 1) := by
  have hN : n = 156 := rfl
  obtain ⟨x₀, h₀⟩ := exists_flat (show 0 < 4 * sfmt.length by omega)
  obtain ⟨p, hp⟩ := exists_innerProduct hlen
  rw [periodCertification_eq hp h₀]
  cases p with
  | true => exact ⟨sfmt, rfl, hlen, hp, fun _ _ => rfl, fun x hx => .inl hx⟩
  | false =>
    obtain ⟨sfmt', hset, hflat⟩ := exists_setPsfmt32 (show 0 < 4 * sfmt.length by omega) (x₀ ^^^ 1)
    refine ⟨sfmt', hset, hflat.length.trans hlen, ?_, fun i hi => hflat.keep i (by omega), fun x hx => .inr ?_⟩
    · simp only [innerProduct, h₀, Option.bind_eq_bind, Option.bind_some, Option.bind_eq_some_iff] at hp
      obtain ⟨x₁, h₁, x₂, h₂, x₃, h₃, hp⟩ := hp
      simp only [innerProduct, hflat.new, hflat.keep 1 (by decide), hflat.keep 2 (by decide), hflat.keep 3 (by decide),
        h₁, h₂, h₃, Option.bind_eq_bind, Option.bind_some, checkSum_xor_one, Bool.not_xor]
      rw [Option.some.inj hp, Bool.not_false]
    · rw [hflat.new, Option.some.inj (h₀.symm.trans hx)]

/-! ### `init_gen_rand` -/

/-- The words that `init_gen_rand` fills in. -/
def seedWord (seed : UInt32) : ℕ → UInt32
  | 0 => seed
  | i + 1 => (1812433253 : UInt32) * (seedWord seed i ^^^ (seedWord seed i >>> 30)) + UInt32.ofNat (i + 1)

/-- **The second word decides the seed.** -/
theorem seedWord_one_injective : Function.Injective fun seed => seedWord seed 1 := by
  intro seed seed' h
  simp only [seedWord, UInt32.add_left_inj] at h
  -- the factor is odd, so it has an inverse
  have hinv : (2520285293 : UInt32) * 1812433253 = 1 := by decide
  have hmul := congrArg ((2520285293 : UInt32) * ·) h
  simp only [← UInt32.mul_assoc, hinv, UInt32.one_mul] at hmul
  apply UInt32.toBitVec_inj.mp
  apply xor_ushiftRight_injective (Nat.succ_pos 29)
  have hshift : ∀ x : UInt32, (x >>> 30).toBitVec = x.toBitVec >>> 30 := fun x => by
    rw [UInt32.toBitVec_shiftRight]
    rfl
  have hbits := congrArg UInt32.toBitVec hmul
  rwa [UInt32.toBitVec_xor, UInt32.toBitVec_xor, hshift, hshift] at hbits

theorem eq_of_flat {sfmt sfmt' : List W128} (hlen : sfmt.length = n) (hlen' : sfmt'.length = n)
    (h : ∀ i < n32, flat sfmt i = flat sfmt' i) : sfmt = sfmt' := by
  apply List.ext_getElem (hlen.trans hlen'.symm)
  intro i hi hi'
  have hN : n32 = 4 * n := rfl
  have hword : ∀ j < 4, sfmt[i].u j = sfmt'[i].u j := by
    intro j hj
    have hflat := h (4 * i + j) (by omega)
    rw [flat, flat, show (4 * i + j) / 4 = i by omega, List.getElem?_eq_getElem hi, List.getElem?_eq_getElem hi',
      Option.map_some, Option.map_some, Option.some.injEq, W128.u, W128.u, Nat.mul_add_mod] at hflat
    exact hflat
  exact W128.ext (hword 0 (by decide)) (hword 1 (by decide)) (hword 2 (by decide)) (hword 3 (by decide))

section Init

variable {s s' : State} {sfmt : List W128} {i : ℕ}

theorem psfmt32_ok (hlen : sfmt.length = n) (hi : i < n32) : ∃ v, psfmt32 sfmt i = .ok v := by
  have hN : n32 = 4 * n := rfl
  obtain ⟨v, hv⟩ := exists_flat (show i < 4 * sfmt.length by omega)
  exact ⟨v, psfmt32_eq_ok.mpr hv⟩

theorem setPsfmt32_ok (hlen : sfmt.length = n) (hi : i < n32) (v : UInt32) :
    ∃ sfmt', setPsfmt32 sfmt i v = .ok sfmt' ∧ FlatSet sfmt sfmt' i v := by
  have hN : n32 = 4 * n := rfl
  exact exists_setPsfmt32 (by omega) v

/-- What `init_gen_rand` fills in, before the parity check. -/
theorem seedLoop_spec (hlen : sfmt.length = n) (seed : UInt32) (h0 : flat sfmt 0 = some seed) :
    ∃ sfmt', (List.range' 1 (n32 - 1)).foldlM (fun sfmt i => do
        let x ← psfmt32 sfmt (i - 1)
        setPsfmt32 sfmt i ((1812433253 : UInt32) * (x ^^^ (x >>> 30)) + UInt32.ofNat i)) sfmt = .ok sfmt' ∧
      sfmt'.length = n ∧ ∀ i < n32, flat sfmt' i = some (seedWord seed i) := by
  have hN : n32 = 624 := rfl
  obtain ⟨sfmt', hsfmt', hlen', hwords⟩ := foldlM_range'_ok (a := 1) (n := n32 - 1)
    (P := fun i (sfmt : List W128) => sfmt.length = n ∧ ∀ j < i, flat sfmt j = some (seedWord seed j))
    (f := fun sfmt i => do
      let x ← psfmt32 sfmt (i - 1)
      setPsfmt32 sfmt i ((1812433253 : UInt32) * (x ^^^ (x >>> 30)) + UInt32.ofNat i))
    (fun i hi hin sfmt hP => by
      obtain ⟨hlen, hwords⟩ := hP
      have hlast := psfmt32_eq_ok.mpr (hwords (i - 1) (by omega))
      obtain ⟨sfmt', hset, hflat⟩ := setPsfmt32_ok hlen (i := i) (by omega) (seedWord seed i)
      obtain ⟨i, rfl⟩ : ∃ j, i = j + 1 := ⟨i - 1, by omega⟩
      refine ⟨sfmt', ?_, hflat.length.trans hlen, fun j hj => ?_⟩
      · rw [hlast, bind_ok, ← hset]
        rfl
      · rcases Nat.lt_succ_iff_lt_or_eq.mp hj with hlt | rfl
        · rw [hflat.keep j hlt.ne, hwords j hlt]
        · exact hflat.new)
    ⟨hlen, fun j hj => by rw [Nat.lt_one_iff.mp hj]; exact h0⟩
  exact ⟨sfmt', hsfmt', hlen', fun i hi => hwords i (by omega)⟩

/-- **`init_gen_rand` goes through**, leaves nothing of the state before, and the parity check comes out as one. -/
theorem initGenRand_spec (hlen : s.sfmt.length = n) (seed : UInt32) :
    ∃ sfmt, initGenRand s seed = .ok ⟨sfmt, n32, true⟩ ∧ sfmt.length = n ∧ innerProduct sfmt = some true ∧
      (∀ i, 1 ≤ i → i < n32 → flat sfmt i = some (seedWord seed i)) ∧
      (flat sfmt 0 = some seed ∨ flat sfmt 0 = some (seed ^^^ 1)) ∧
      ∀ t : State, t.sfmt.length = n → initGenRand t seed = .ok ⟨sfmt, n32, true⟩ := by
  have hN : n32 = 624 := rfl
  have hfill : ∀ t : State, t.sfmt.length = n → ∃ a b, setPsfmt32 t.sfmt 0 seed = .ok a ∧
      (List.range' 1 (n32 - 1)).foldlM (fun sfmt i => do
        let x ← psfmt32 sfmt (i - 1)
        setPsfmt32 sfmt i ((1812433253 : UInt32) * (x ^^^ (x >>> 30)) + UInt32.ofNat i)) a = .ok b ∧
      b.length = n ∧ ∀ i < n32, flat b i = some (seedWord seed i) := by
    intro t ht
    obtain ⟨a, ha, hflat⟩ := setPsfmt32_ok ht (i := 0) (by omega) seed
    obtain ⟨b, hb, hlen', hwords⟩ := seedLoop_spec (hflat.length.trans ht) seed hflat.new
    exact ⟨a, b, ha, hb, hlen', hwords⟩
  obtain ⟨a, b, ha, hb, hlenb, hwords⟩ := hfill s hlen
  obtain ⟨c, hc, hlenc, hinner, hrest, hfirst⟩ := periodCertification_spec hlenb
  refine ⟨c, ?_, hlenc, hinner, fun i hi hin => (hrest i hi).trans (hwords i hin),
    hfirst seed (hwords 0 (Nat.succ_pos 623)), fun t ht => ?_⟩
  · rw [initGenRand, ha, bind_ok, hb, bind_ok, hc, bind_ok]
  · obtain ⟨a', b', ha', hb', hlenb', hwords'⟩ := hfill t ht
    obtain rfl : b' = b := eq_of_flat hlenb' hlenb fun i hi => (hwords' i hi).trans (hwords i hi).symm
    rw [initGenRand, ha', bind_ok, hb', bind_ok, hc, bind_ok]

/-! ### `init_by_array` -/

/-- The state has its length, and the counter of `init_by_array` is within it. -/
def InBounds (s : List W128 × ℕ) : Prop := s.1.length = n ∧ s.2 < n32

theorem mod_n32_lt (i : ℕ) : i % n32 < n32 := Nat.mod_lt i (Nat.succ_pos 623)

theorem mixIn_ok {s : List W128 × ℕ} (h : InBounds s) (key : UInt32) : ∃ s', mixIn key s = .ok s' ∧ InBounds s' := by
  obtain ⟨sfmt, i⟩ := s
  obtain ⟨hlen, hi⟩ := h
  obtain ⟨x, hx⟩ := psfmt32_ok hlen hi
  obtain ⟨y, hy⟩ := psfmt32_ok hlen (mod_n32_lt (i + mid))
  obtain ⟨z, hz⟩ := psfmt32_ok hlen (mod_n32_lt (i + n32 - 1))
  obtain ⟨a, ha, hfa⟩ := setPsfmt32_ok hlen (mod_n32_lt (i + mid)) (y + func1 (x ^^^ y ^^^ z))
  have hlena := hfa.length.trans hlen
  obtain ⟨v, hv⟩ := psfmt32_ok hlena (mod_n32_lt (i + mid + lag (n * 4)))
  obtain ⟨b, hb, hfb⟩ := setPsfmt32_ok hlena (mod_n32_lt (i + mid + lag (n * 4)))
    (v + (func1 (x ^^^ y ^^^ z) + (key + UInt32.ofNat i)))
  have hlenb := hfb.length.trans hlena
  obtain ⟨c, hc, hfc⟩ := setPsfmt32_ok hlenb hi (func1 (x ^^^ y ^^^ z) + (key + UInt32.ofNat i))
  refine ⟨(c, (i + 1) % n32), ?_, hfc.length.trans hlenb, mod_n32_lt _⟩
  dsimp only at hx hy hz ha hc
  simp only [mixIn, hx, hy, hz, ha, hv, hb, hc, bind_ok]

theorem mixOut_ok {s : List W128 × ℕ} (h : InBounds s) : ∃ s', mixOut s = .ok s' ∧ InBounds s' := by
  obtain ⟨sfmt, i⟩ := s
  obtain ⟨hlen, hi⟩ := h
  obtain ⟨x, hx⟩ := psfmt32_ok hlen hi
  obtain ⟨y, hy⟩ := psfmt32_ok hlen (mod_n32_lt (i + mid))
  obtain ⟨z, hz⟩ := psfmt32_ok hlen (mod_n32_lt (i + n32 - 1))
  obtain ⟨a, ha, hfa⟩ := setPsfmt32_ok hlen (mod_n32_lt (i + mid)) (y ^^^ func2 (x + y + z))
  have hlena := hfa.length.trans hlen
  obtain ⟨v, hv⟩ := psfmt32_ok hlena (mod_n32_lt (i + mid + lag (n * 4)))
  obtain ⟨b, hb, hfb⟩ := setPsfmt32_ok hlena (mod_n32_lt (i + mid + lag (n * 4)))
    (v ^^^ (func2 (x + y + z) - UInt32.ofNat i))
  have hlenb := hfb.length.trans hlena
  obtain ⟨c, hc, hfc⟩ := setPsfmt32_ok hlenb hi (func2 (x + y + z) - UInt32.ofNat i)
  refine ⟨(c, (i + 1) % n32), ?_, hfc.length.trans hlenb, mod_n32_lt _⟩
  dsimp only at hx hy hz ha hc
  simp only [mixOut, hx, hy, hz, ha, hv, hb, hc, bind_ok]

/-- **`init_by_array` goes through for every key**, and the parity check comes out as one. -/
theorem initByArray_spec (initKey : InitKey) :
    ∃ sfmt, initByArray initKey = .ok ⟨sfmt, n32, true⟩ ∧ sfmt.length = n ∧ innerProduct sfmt = some true := by
  set r₀ : List W128 := List.replicate n ⟨0x8b8b8b8b, 0x8b8b8b8b, 0x8b8b8b8b, 0x8b8b8b8b⟩ with hr₀
  have hlen : r₀.length = n := List.length_replicate
  obtain ⟨x, hx⟩ := psfmt32_ok hlen (i := 0) (Nat.succ_pos 623)
  obtain ⟨y, hy⟩ := psfmt32_ok hlen (i := mid) (by decide)
  obtain ⟨z, hz⟩ := psfmt32_ok hlen (i := n32 - 1) (by decide)
  obtain ⟨a, ha, hfa⟩ := setPsfmt32_ok hlen (i := mid) (by decide) (y + func1 (x ^^^ y ^^^ z))
  have hlena := hfa.length.trans hlen
  obtain ⟨v, hv⟩ := psfmt32_ok hlena (i := mid + lag (n * 4)) (by decide)
  obtain ⟨b, hb, hfb⟩ := setPsfmt32_ok hlena (i := mid + lag (n * 4)) (by decide)
    (v + (func1 (x ^^^ y ^^^ z) + UInt32.ofNat initKey.1.length))
  have hlenb := hfb.length.trans hlena
  obtain ⟨c, hc, hfc⟩ := setPsfmt32_ok hlenb (i := 0) (Nat.succ_pos 623)
    (func1 (x ^^^ y ^^^ z) + UInt32.ofNat initKey.1.length)
  have hstart : InBounds (c, 1) := ⟨hfc.length.trans hlenb, Nat.succ_lt_succ (Nat.succ_pos 622)⟩
  generalize hcount : (if n32 < initKey.1.length + 1 then initKey.1.length + 1 else n32) = count
  obtain ⟨s₁, hs₁, h₁⟩ := foldlM_ok (P := InBounds) (l := initKey.1.take (count - 1)) (f := fun s key => mixIn key s)
    (fun s key _ h => mixIn_ok h key) hstart
  obtain ⟨s₂, hs₂, h₂⟩ := foldlM_ok (P := InBounds)
    (l := List.range' initKey.1.length (count - 1 - initKey.1.length)) (f := fun s _ => mixIn 0 s)
    (fun s _ _ h => mixIn_ok h 0) h₁
  obtain ⟨s₃, hs₃, h₃⟩ := foldlM_ok (P := InBounds) (l := List.range n32) (f := fun s _ => mixOut s)
    (fun s _ _ h => mixOut_ok h) h₂
  obtain ⟨sfmt, hcert, hlen', hinner, -⟩ := periodCertification_spec h₃.1
  refine ⟨sfmt, ?_, hlen', hinner⟩
  simp only [initByArray, ← hr₀, hx, hy, hz, ha, hv, hb, hc, hcount, hs₁, hs₂, hs₃, hcert, bind_ok]

end Init

end Sfmt

end Dedisbench
