import Mathlib.Data.List.Range
import Mathlib.Tactic.Ring

/-!
# Byte-addressed memory

A memory is its bytes by address.  `write m off len src` is what `memcpy`, or a `pwrite` of `len`
bytes at `off`, leaves behind; `read m off len` is what comes back.  A read of what was last
written returns it (`read_write_self`), a write elsewhere does not change a read
(`read_write_disjoint`).  `le32` is a 32-bit word in memory, least significant byte first;
`word32` reads it back.
-/

namespace ByteMem

/-- A memory: the byte at every address. -/
abbrev Mem := ℕ → UInt8

/-- `len` bytes of `src` copied to `off`. -/
def write (m : Mem) (off len : ℕ) (src : Mem) : Mem := fun i =>
  if off ≤ i ∧ i < off + len then src (i - off) else m i

/-- The `len` bytes at `off`. -/
def read (m : Mem) (off len : ℕ) : List UInt8 := (List.range len).map fun i => m (off + i)

/-- The memory of a list of bytes, `0` after its end. -/
def ofList (l : List UInt8) : Mem := fun i => l.getD i 0

@[simp] theorem length_read (m : Mem) (off len : ℕ) : (read m off len).length = len := by
  simp [read]

theorem read_eq_read_iff {m m' : Mem} {off off' len : ℕ} :
    read m off len = read m' off' len ↔ ∀ i < len, m (off + i) = m' (off' + i) := by
  simp [read]

theorem getElem?_read {m : Mem} {off len i : ℕ} (h : i < len) :
    (read m off len)[i]? = some (m (off + i)) := by
  simp [read, h]

theorem write_of_lt {m src : Mem} {off len i : ℕ} (h : i < off) : write m off len src i = m i := by
  rw [write, if_neg (by omega)]

theorem write_of_ge {m src : Mem} {off len i : ℕ} (h : off + len ≤ i) :
    write m off len src i = m i := by
  rw [write, if_neg (by omega)]

theorem write_at {m src : Mem} {off len i : ℕ} (h : i < len) :
    write m off len src (off + i) = src i := by
  rw [write, if_pos (by omega), Nat.add_sub_cancel_left]

theorem read_write_self (m src : Mem) (off len : ℕ) :
    read (write m off len src) off len = read src 0 len := by
  rw [read_eq_read_iff]
  intro i hi
  rw [write_at hi, Nat.zero_add]

theorem read_write_disjoint (m src : Mem) {off len off' len' : ℕ}
    (h : off' + len' ≤ off ∨ off + len ≤ off') :
    read (write m off len src) off' len' = read m off' len' := by
  rw [read_eq_read_iff]
  intro i hi
  rcases h with h | h
  · exact write_of_lt (by omega)
  · exact write_of_ge (by omega)

/-- Two blocks of one size at different block numbers do not meet. -/
theorem blocks_disjoint {bs k k' : ℕ} (h : k ≠ k') :
    k' * bs + bs ≤ k * bs ∨ k * bs + bs ≤ k' * bs := by
  rcases Nat.lt_or_gt_of_ne h with h | h
  · right
    calc k * bs + bs = (k + 1) * bs := by ring
      _ ≤ k' * bs := Nat.mul_le_mul_right bs h
  · left
    calc k' * bs + bs = (k' + 1) * bs := by ring
      _ ≤ k * bs := Nat.mul_le_mul_right bs h

/-! ### 32-bit words -/

/-- The four bytes of a 32-bit word, least significant first. -/
def le32 (n : ℕ) : Mem := fun i => UInt8.ofNat (n / 256 ^ i)

/-- The 32-bit word at `off`. -/
def word32 (m : Mem) (off : ℕ) : ℕ :=
  (m off).toNat + 256 * ((m (off + 1)).toNat + 256 * ((m (off + 2)).toNat + 256 * (m (off + 3)).toNat))

theorem word32_lt (m : Mem) (off : ℕ) : word32 m off < 2 ^ 32 := by
  have h0 := (m off).toNat_lt
  have h1 := (m (off + 1)).toNat_lt
  have h2 := (m (off + 2)).toNat_lt
  have h3 := (m (off + 3)).toNat_lt
  unfold word32
  omega

theorem word32_congr {m m' : Mem} {off off' : ℕ} (h : ∀ i < 4, m (off + i) = m' (off' + i)) :
    word32 m off = word32 m' off' := by
  have h0 := h 0 (by omega)
  have h1 := h 1 (by omega)
  have h2 := h 2 (by omega)
  have h3 := h 3 (by omega)
  rw [Nat.add_zero, Nat.add_zero] at h0
  rw [word32, word32, h0, h1, h2, h3]

/-- A word of memory that reads the same. -/
theorem word32_of_read {m m' : Mem} {n off : ℕ} (h : read m 0 n = read m' 0 n) (hoff : off + 4 ≤ n) :
    word32 m off = word32 m' off := by
  refine word32_congr fun i hi => ?_
  have hbyte := read_eq_read_iff.mp h (off + i) (by omega)
  rwa [Nat.zero_add] at hbyte

/-- **A word is read back as it was written.** -/
theorem word32_write_le32 (m : Mem) (off : ℕ) {n : ℕ} (h : n < 2 ^ 32) :
    word32 (write m off 4 (le32 n)) off = n := by
  have key : ∀ i < 4, write m off 4 (le32 n) (off + i) = le32 n i := fun i hi => write_at hi
  have h0 := key 0 (by omega)
  rw [Nat.add_zero] at h0
  rw [word32, h0, key 1 (by omega), key 2 (by omega), key 3 (by omega)]
  simp only [le32, UInt8.toNat_ofNat']
  omega

end ByteMem
