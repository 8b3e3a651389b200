import Mathlib.Data.Nat.Notation
import Mathlib.Logic.Function.Basic

/-!
# Xor and shift

Generators of random numbers mix a word with its own shifts, `x ^^^ (x <<< k)` and the like.  Such a map loses nothing:
the bits of `x` can be told one after the other, from the end where the shift has brought in zeros
(`xor_injective`).

Folding a word onto itself by half its length, again and again, leaves the sum of its bits modulo two (`sumBits_fold`).
-/

namespace XorShift

variable {w : ℕ}

/-! ### Telling a word from what it was mixed to -/

/-- **A word can be told from its sum with another one**, if each bit of the other one is decided by bits of the word
that come earlier in some order. -/
theorem xor_injective {h : BitVec w → BitVec w} (rank : ℕ → ℕ)
    (hdep : ∀ x y i, (∀ j, rank j < rank i → x.getLsbD j = y.getLsbD j) → (h x).getLsbD i = (h y).getLsbD i) :
    Function.Injective fun x => x ^^^ h x := by
  intro x y hxy
  have hbits : ∀ r i, rank i = r → x.getLsbD i = y.getLsbD i := by
    intro r
    induction r using Nat.strongRecOn with
    | ind r ih =>
      rintro i rfl
      have hi := congrArg (fun z => z.getLsbD i) hxy
      simp only [BitVec.getLsbD_xor] at hi
      rw [hdep x y i fun j hj => ih _ hj j rfl] at hi
      exact Bool.xor_right_inj.mp (by rw [Bool.xor_comm, hi, Bool.xor_comm])
  exact BitVec.eq_of_getLsbD_eq fun i _ => hbits _ i rfl

/-- A shift to the left, with something that does not depend on the word in the place of the zeros. -/
theorem xor_shiftLeft_or_injective {k : ℕ} (hk : 0 < k) (t : BitVec w) :
    Function.Injective fun x : BitVec w => x ^^^ (x <<< k ||| t) := by
  apply xor_injective id
  intro x y i hlow
  simp only [BitVec.getLsbD_or, BitVec.getLsbD_shiftLeft]
  rcases Nat.lt_or_ge i k with hlt | hge
  · simp [hlt]
  · rw [hlow (i - k) (by simp only [id]; omega)]

theorem xor_shiftLeft_injective {k : ℕ} (hk : 0 < k) : Function.Injective fun x : BitVec w => x ^^^ x <<< k := by
  have h := xor_shiftLeft_or_injective hk (0#w)
  simpa only [BitVec.or_zero] using h

theorem xor_ushiftRight_injective {k : ℕ} (hk : 0 < k) : Function.Injective fun x : BitVec w => x ^^^ x >>> k := by
  apply xor_injective fun j => w - j
  intro x y i hhigh
  simp only [BitVec.getLsbD_ushiftRight]
  rcases Nat.lt_or_ge i w with hlt | hge
  · exact hhigh (k + i) (by omega)
  · rw [BitVec.getLsbD_of_ge x _ (by omega), BitVec.getLsbD_of_ge y _ (by omega)]

/-! ### The sum of the bits -/

/-- The sum of the first `n` bits of a sequence, modulo two. -/
def sumBits (f : ℕ → Bool) : ℕ → Bool
  | 0 => false
  | n + 1 => sumBits f n ^^ f n

theorem sumBits_congr {f g : ℕ → Bool} {n : ℕ} (h : ∀ i < n, f i = g i) : sumBits f n = sumBits g n := by
  induction n with
  | zero => rfl
  | succ n ih => rw [sumBits, sumBits, ih fun i hi => h i (Nat.lt_succ_of_lt hi), h n n.lt_succ_self]

theorem sumBits_xor (f g : ℕ → Bool) (n : ℕ) : sumBits (fun i => f i ^^ g i) n = (sumBits f n ^^ sumBits g n) := by
  induction n with
  | zero => rfl
  | succ n ih =>
    rw [sumBits, sumBits, sumBits, ih]
    simp only [Bool.xor_assoc, Bool.xor_left_comm]

theorem sumBits_add (f : ℕ → Bool) (m n : ℕ) : sumBits f (m + n) = (sumBits f m ^^ sumBits (fun i => f (m + i)) n) := by
  induction n with
  | zero => rw [Nat.add_zero, sumBits, Bool.xor_false]
  | succ n ih => rw [Nat.add_succ, sumBits, ih, sumBits, Bool.xor_assoc]

/-- **A word folded onto itself**: the sum of the lower half of the bits is what that of all of them was. -/
theorem sumBits_fold (x : BitVec w) {n : ℕ} (hn : n + n ≤ w) :
    sumBits (x ^^^ x.sshiftRight n).getLsbD n = sumBits x.getLsbD (n + n) := by
  rw [sumBits_add, ← sumBits_xor]
  apply sumBits_congr
  intro i hi
  have hw : ¬ w ≤ i := by omega
  have hni : n + i < w := by omega
  rw [BitVec.getLsbD_xor, BitVec.getLsbD_sshiftRight]
  simp [hw, hni]

end XorShift
