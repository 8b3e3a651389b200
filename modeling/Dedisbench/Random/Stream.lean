import Mathlib.Data.Fin.VecNotation
import Dedisbench.Lib.Lagged
import Dedisbench.Random.Sfmt

/-!
# The words of the generator

The words of the state and those that come after them make one sequence, in which every word follows from four before
it (`recurrence`).  However they are drawn, one at a time, in pairs or into an array, the generator hands out the words
of the sequence in their order, each once (`calls_in_order`).
-/

namespace Dedisbench

namespace Sfmt

open Lagged ExceptRun

/-! ### Arrays -/

section Arrays

variable {α : Type} {a a' : List α} {i : ℕ} {x : α}

theorem arrayAt_eq_ok : arrayAt a i = .ok x ↔ a[i]? = some x := by
  unfold arrayAt
  split
  next y h => rw [h]; simp
  next h => rw [h]; simp

theorem arraySet_ok (h : i < a.length) (x : α) : arraySet a i x = .ok (a.set i x) := if_pos h

/-- What the pointers lead to. -/
def Mem.get (m : Mem) : Ptr → Option W128
  | .sfmt i => m.sfmt[i]?
  | .array i => m.array[i]?

variable {m : Mem} {p : Ptr} {v : W128}

theorem Mem.read_eq_ok : m.read p = .ok v ↔ m.get p = some v := by
  cases p with
  | sfmt i => exact arrayAt_eq_ok
  | array i => exact arrayAt_eq_ok

/-- The memory after a write of `x` through `p`. -/
structure Mem.Written (m m' : Mem) (p : Ptr) (x : W128) : Prop where
  new : m'.get p = some x
  keep : ∀ q, q ≠ p → m'.get q = m.get q
  sfmt_length : m'.sfmt.length = m.sfmt.length
  array_length : m'.array.length = m.array.length

theorem Mem.exists_write (h : (m.get p).isSome) (x : W128) : ∃ m', m.write p x = .ok m' ∧ Mem.Written m m' p x := by
  cases p with
  | sfmt i =>
    have hi : i < m.sfmt.length := by simpa [get] using h
    refine ⟨{ m with sfmt := m.sfmt.set i x }, ?_, ?_, fun q hq => ?_, by simp, rfl⟩
    · rw [write, arraySet_ok hi, bind_ok]
    · simp [get, hi]
    · cases q with
      | sfmt j => simpa [get] using List.getElem?_set_ne fun hij => hq (congrArg Ptr.sfmt hij.symm)
      | array j => rfl
  | array i =>
    have hi : i < m.array.length := by simpa [get] using h
    refine ⟨{ m with array := m.array.set i x }, ?_, ?_, fun q hq => ?_, rfl, by simp⟩
    · rw [write, arraySet_ok hi, bind_ok]
    · simp [get, hi]
    · cases q with
      | sfmt j => rfl
      | array j => simpa [get] using List.getElem?_set_ne fun hij => hq (congrArg Ptr.array hij.symm)

end Arrays

/-! ### The recurrence -/

/-- The words that a word is made of. -/
def taps : Fin 4 → ℕ := ![0, pos1, n - 2, n - 1]

theorem taps_lt (j : Fin 4) : taps j < n := by
  revert j
  decide

/-- Every word is made of the word `n` places before, the one `pos1` places on from there, and the last two. -/
def recurrence : Recurrence (Fin 4) W128 where
  order := n
  lag := taps
  rule t := doRecursion (t 0) (t 1) (t 2) (t 3)
  lag_lt := taps_lt

variable {w : ℕ → W128} {base size : ℕ} {m : Mem} {s : Fill}

theorem follows_iff : recurrence.Follows w ↔
    ∀ k, w (k + n) = doRecursion (w k) (w (k + pos1)) (w (k + n - 2)) (w (k + n - 1)) := by
  refine forall_congr' fun k => ?_
  have h2 : k + (n - 2) = k + n - 2 := by simp only [n, mexp]; omega
  have h1 : k + (n - 1) = k + n - 1 := by simp only [n, mexp]; omega
  rw [← h2, ← h1]
  rfl

/-- **The body of a loop**, where the word at `t` of a sequence is in the cell `l t`. -/
theorem Fill.step_word {l : ℕ → Ptr} {r a b : ℕ → Ptr} {i k : ℕ} (hw : recurrence.Follows w) (hr : r i = l (k + n))
    (ha : s.mem.get (a i) = some (w k)) (hb : s.mem.get (b i) = some (w (k + pos1)))
    (h1 : s.mem.get s.r1 = some (w (k + n - 2))) (h2 : s.mem.get s.r2 = some (w (k + n - 1)))
    (hcell : (s.mem.get (l (k + n))).isSome) :
    ∃ mem, s.step r a b i = .ok ⟨mem, s.r2, l (k + n)⟩ ∧ s.mem.Written mem (l (k + n)) (w (k + n)) := by
  obtain ⟨mem, hmem, hwritten⟩ := Mem.exists_write hcell (w (k + n))
  refine ⟨mem, ?_, hwritten⟩
  simp only [step, Mem.read_eq_ok.mpr ha, Mem.read_eq_ok.mpr hb, Mem.read_eq_ok.mpr h1, Mem.read_eq_ok.mpr h2, hr,
    bind_ok, ← follows_iff.mp hw k, hmem]

/-! ### `gen_rand_all` -/

/-- The state array as a ring. -/
def ring (t : ℕ) : Ptr := .sfmt (t % n)

theorem ring_of_lt {t : ℕ} (h : t < n) : ring t = .sfmt t := by rw [ring, Nat.mod_eq_of_lt h]

theorem ring_add (t : ℕ) : ring (t + n) = ring t := by rw [ring, ring, Nat.add_mod_right]

/-- Where `gen_rand_all` is before its word at `i`. -/
structure RingFill (w : ℕ → W128) (i : ℕ) (s : Fill) : Prop where
  held : Held ring w i (i + n) s.mem.get
  r1 : s.r1 = ring (i + n - 2)
  r2 : s.r2 = ring (i + n - 1)
  length : s.mem.sfmt.length = n

theorem RingFill.step {b : ℕ → Ptr} {i : ℕ} (hw : recurrence.Follows w) (h : RingFill w i s) (hi : i < n)
    (hb : b i = ring (i + pos1)) : ∃ s', s.step .sfmt .sfmt b i = .ok s' ∧ RingFill w (i + 1) s' := by
  have hN : n = 156 := rfl
  have hP : pos1 = 122 := rfl
  have hr : Ptr.sfmt i = ring (i + n) := by rw [ring_add, ring_of_lt hi]
  obtain ⟨mem, hstep, hwritten⟩ := Fill.step_word (l := ring) (a := .sfmt) (b := b) hw hr
    (by rw [← ring_of_lt hi]; exact h.held i le_rfl (by omega))
    (by rw [hb]; exact h.held _ (by omega) (by omega))
    (by rw [h.r1]; exact h.held _ (by omega) (by omega))
    (by rw [h.r2]; exact h.held _ (by omega) (by omega))
    (by rw [ring_add, h.held i le_rfl (by omega)]; rfl)
  refine ⟨_, hstep, ?_, ?_, ?_, hwritten.sfmt_length.trans h.length⟩
  · rw [Nat.add_right_comm]
    refine h.held.push (Nat.le_succ i) (fun t hit htn heq => ?_) hwritten.keep hwritten.new
    exact ring_apart hit htn (Ptr.sfmt.inj heq)
  · rw [h.r2, Nat.add_right_comm, Nat.add_sub_assoc (by decide)]
    congr 1
  · rw [Nat.add_right_comm, Nat.add_sub_cancel]

/-- **`gen_rand_all` replaces the words of the state by those that come after them.** -/
theorem genRandAll_window (hw : recurrence.Follows w) (base : ℕ) :
    genRandAll (window w base n) = .ok (window w (base + n) n) := by
  have hN : n = 156 := rfl
  have hP : pos1 = 122 := rfl
  have hw' := hw.shift base
  have hstart : RingFill (fun t => w (base + t)) 0
      ⟨⟨window w base n, []⟩, .sfmt (n - 2), .sfmt (n - 1)⟩ := by
    refine ⟨fun t _ ht => ?_, ?_, ?_, length_window _ _ _⟩
    · rw [Nat.zero_add] at ht
      rw [ring_of_lt ht]
      exact getElem?_window w base ht
    · rw [Nat.zero_add, ring_of_lt (by omega)]
    · rw [Nat.zero_add, ring_of_lt (by omega)]
  obtain ⟨s₁, hs₁, h₁⟩ := foldlM_range'_ok (P := RingFill fun t => w (base + t)) (a := 0) (n := n - pos1)
    (fun i _ hi s hs => hs.step hw' (b := fun i => .sfmt (i + pos1)) (by omega) (ring_of_lt (by omega)).symm) hstart
  rw [Nat.zero_add] at h₁
  obtain ⟨s₂, hs₂, h₂⟩ := foldlM_range'_ok (P := RingFill fun t => w (base + t)) (a := n - pos1) (n := pos1)
    (fun i hi hin s hs => hs.step hw' (b := fun i => .sfmt (i + pos1 - n)) (by omega) (by
      rw [show i + pos1 = i + pos1 - n + n by omega, ring_add, ring_of_lt (by omega), Nat.add_sub_cancel])) h₁
  rw [show n - pos1 + pos1 = n by omega] at h₂
  rw [genRandAll, hs₁, bind_ok, hs₂, bind_ok, Except.ok.injEq]
  apply eq_window h₂.length
  intro j hj
  have hword := h₂.held (j + n) (by omega) (by omega)
  rw [ring_add, ring_of_lt hj] at hword
  rw [Nat.add_assoc, Nat.add_comm n]
  exact hword

/-! ### `gen_rand_array` -/

/-- The words of the state, and behind them the array of the caller. -/
def place (t : ℕ) : Ptr := if t < n then .sfmt t else .array (t - n)

theorem place_of_lt {t : ℕ} (h : t < n) : place t = .sfmt t := if_pos h

theorem place_of_ge {t : ℕ} (h : n ≤ t) : place t = .array (t - n) := if_neg (Nat.not_lt.mpr h)

theorem place_add (t : ℕ) : place (t + n) = .array t := by rw [place_of_ge (Nat.le_add_left _ _), Nat.add_sub_cancel]

/-- No cell holds two words. -/
theorem place_injective : Function.Injective place := by
  intro t t' h
  rcases Nat.lt_or_ge t n with ht | ht <;> rcases Nat.lt_or_ge t' n with ht' | ht'
  · rw [place_of_lt ht, place_of_lt ht'] at h
    exact Ptr.sfmt.inj h
  · rw [place_of_lt ht, place_of_ge ht'] at h
    cases h
  · rw [place_of_ge ht, place_of_lt ht'] at h
    cases h
  · rw [place_of_ge ht, place_of_ge ht', Ptr.array.injEq] at h
    omega

/-- Where `gen_rand_array` is before its word at `i`, as long as it leaves the state alone. -/
structure ArrayFill (w : ℕ → W128) (len i : ℕ) (s : Fill) : Prop where
  held : Held place w 0 (i + n) s.mem.get
  r1 : s.r1 = place (i + n - 2)
  r2 : s.r2 = place (i + n - 1)
  sfmt_length : s.mem.sfmt.length = n
  array_length : s.mem.array.length = len

section Array

variable {len i j k : ℕ}

theorem ArrayFill.step {a b : ℕ → Ptr} (hw : recurrence.Follows w) (h : ArrayFill w len i s) (hi : i < len)
    (ha : a i = place i) (hb : b i = place (i + pos1)) :
    ∃ s', s.step .array a b i = .ok s' ∧ ArrayFill w len (i + 1) s' := by
  have hN : n = 156 := rfl
  have hP : pos1 = 122 := rfl
  obtain ⟨mem, hstep, hwritten⟩ := Fill.step_word (l := place) (a := a) (b := b) hw (place_add i).symm
    (by rw [ha]; exact h.held i (Nat.zero_le _) (by omega))
    (by rw [hb]; exact h.held _ (Nat.zero_le _) (by omega))
    (by rw [h.r1]; exact h.held _ (Nat.zero_le _) (by omega))
    (by rw [h.r2]; exact h.held _ (Nat.zero_le _) (by omega))
    (by rw [place_add]; simpa [Mem.get, h.array_length] using hi)
  refine ⟨_, hstep, ?_, ?_, ?_, hwritten.sfmt_length.trans h.sfmt_length, hwritten.array_length.trans h.array_length⟩
  · rw [Nat.add_right_comm]
    exact h.held.push le_rfl (fun t _ htn heq => absurd (place_injective heq) htn.ne) hwritten.keep hwritten.new
  · rw [h.r2, Nat.add_right_comm, Nat.add_sub_assoc (by decide)]
    congr 1
  · rw [Nat.add_right_comm, Nat.add_sub_cancel]

/-- Where it is when it puts its last words into the state: `k` words are in the array, `j` of the last ones in the
state. -/
structure Keeping (w : ℕ → W128) (size len k j : ℕ) (m : Mem) : Prop where
  array : ∀ t < k, m.array[t]? = some (w (n + t))
  kept : ∀ t < j, m.sfmt[t]? = some (w (size + t))
  sfmt_length : m.sfmt.length = n
  array_length : m.array.length = len

theorem Keeping.keep (h : Keeping w size len k j m) (hj : j < n) (hi : i < k) (hij : n + i = size + j) :
    ∃ m', m.keep j i = .ok m' ∧ Keeping w size len k (j + 1) m' := by
  have hcell : (m.get (.sfmt j)).isSome := by simpa [Mem.get, h.sfmt_length] using hj
  obtain ⟨m', hm', hwritten⟩ := Mem.exists_write hcell (w (n + i))
  refine ⟨m', ?_, fun t ht => ?_, fun t ht => ?_, hwritten.sfmt_length.trans h.sfmt_length,
    hwritten.array_length.trans h.array_length⟩
  · have hread : m.get (.array i) = some (w (n + i)) := h.array i hi
    rw [Mem.keep, Mem.read_eq_ok.mpr hread, bind_ok, hm']
  · exact (hwritten.keep (.array t) (by simp)).trans (h.array t ht)
  · rcases Nat.lt_succ_iff_lt_or_eq.mp ht with hlt | rfl
    · exact (hwritten.keep (.sfmt t) (by simpa using hlt.ne)).trans (h.kept t hlt)
    · rw [← hij]
      exact hwritten.new

/-- The body of the last loop. -/
theorem Keeping.step {s : Fill × ℕ} (hw : recurrence.Follows w) (h : Keeping w size len i s.2 s.1.mem)
    (hi : i < len) (hni : n ≤ i) (hj : s.2 < n) (hij : n + i = size + s.2) (h1 : s.1.r1 = .array (i - 2))
    (h2 : s.1.r2 = .array (i - 1)) :
    ∃ s', Fill.stepKeep s i = .ok s' ∧ s'.2 = s.2 + 1 ∧ Keeping w size len (i + 1) s'.2 s'.1.mem ∧
      s'.1.r1 = .array (i - 1) ∧ s'.1.r2 = .array i := by
  have hN : n = 156 := rfl
  have hP : pos1 = 122 := rfl
  have hword : ∀ t, n ≤ t → t < n + i → s.1.mem.get (.array (t - n)) = some (w t) := by
    intro t ht hti
    have harray := h.array (t - n) (by omega)
    rwa [show n + (t - n) = t by omega] at harray
  obtain ⟨mem, hstep, hwritten⟩ := Fill.step_word (l := place) (r := .array) (a := fun i => .array (i - n))
    (b := fun i => .array (i + pos1 - n)) hw (place_add i).symm (hword i hni (by omega))
    (hword (i + pos1) (by omega) (by omega))
    (by rw [h1, show i - 2 = i + n - 2 - n by omega]; exact hword _ (by omega) (by omega))
    (by rw [h2, show i - 1 = i + n - 1 - n by omega]; exact hword _ (by omega) (by omega))
    (by rw [place_add]; simpa [Mem.get, h.array_length] using hi)
  have hkeeping : Keeping w size len (i + 1) s.2 mem := by
    refine ⟨fun t ht => ?_, fun t ht => ?_, hwritten.sfmt_length.trans h.sfmt_length,
      hwritten.array_length.trans h.array_length⟩
    · rcases Nat.lt_succ_iff_lt_or_eq.mp ht with hlt | rfl
      · refine (hwritten.keep (.array t) ?_).trans (h.array t hlt)
        rw [place_add]
        simpa using hlt.ne
      · have hnew := hwritten.new
        rwa [place_add, Nat.add_comm] at hnew
    · refine (hwritten.keep (.sfmt t) ?_).trans (h.kept t ht)
      rw [place_add]
      simp
  obtain ⟨mem', hkeep, hkeeping'⟩ := hkeeping.keep hj i.lt_succ_self hij
  refine ⟨(⟨mem', s.1.r2, place (i + n)⟩, s.2 + 1), ?_, rfl, hkeeping', h2, place_add i⟩
  rw [Fill.stepKeep, hstep, bind_ok, hkeep, bind_ok]

/-- The first three loops. -/
theorem ArrayFill.loops {array : List W128} (hw : recurrence.Follows w) (hsize : n ≤ size) (hlen : size ≤ array.length)
    (hs : ArrayFill w array.length 0 s) : ∃ s₁ s₂ s₃,
      (List.range' 0 (n - pos1)).foldlM (Fill.step .array .sfmt fun i => .sfmt (i + pos1)) s = .ok s₁ ∧
      (List.range' (n - pos1) pos1).foldlM (Fill.step .array .sfmt fun i => .array (i + pos1 - n)) s₁ = .ok s₂ ∧
      (List.range' n (size - n - n)).foldlM
        (Fill.step .array (fun i => .array (i - n)) fun i => .array (i + pos1 - n)) s₂ = .ok s₃ ∧
      ArrayFill w array.length (max n (size - n)) s₃ := by
  have hN : n = 156 := rfl
  have hP : pos1 = 122 := rfl
  obtain ⟨s₁, hs₁, h₁⟩ := foldlM_range'_ok (P := ArrayFill w array.length) (a := 0) (n := n - pos1)
    (fun i _ hi s hs => hs.step hw (a := .sfmt) (b := fun i => .sfmt (i + pos1)) (by omega)
      (place_of_lt (by omega)).symm (place_of_lt (by omega)).symm) hs
  rw [Nat.zero_add] at h₁
  obtain ⟨s₂, hs₂, h₂⟩ := foldlM_range'_ok (P := ArrayFill w array.length) (a := n - pos1) (n := pos1)
    (fun i hi hin s hs => hs.step hw (a := .sfmt) (b := fun i => .array (i + pos1 - n)) (by omega)
      (place_of_lt (by omega)).symm (place_of_ge (by omega)).symm) h₁
  rw [show n - pos1 + pos1 = n by omega] at h₂
  obtain ⟨s₃, hs₃, h₃⟩ := foldlM_range'_ok (P := ArrayFill w array.length) (a := n) (n := size - n - n)
    (fun i hi hin s hs => hs.step hw (a := fun i => .array (i - n)) (b := fun i => .array (i + pos1 - n)) (by omega)
      (place_of_ge hi).symm (place_of_ge (by omega)).symm) h₂
  rw [show n + (size - n - n) = max n (size - n) by omega] at h₃
  exact ⟨s₁, s₂, s₃, hs₁, hs₂, hs₃, h₃⟩

theorem ArrayFill.keeping (h : ArrayFill w len i s) : Keeping w size len i 0 s.mem := by
  refine ⟨fun t ht => ?_, fun t ht => absurd ht (Nat.not_lt_zero t), h.sfmt_length, h.array_length⟩
  have hword := h.held (t + n) (Nat.zero_le _) (by omega)
  rw [place_add] at hword
  rw [Nat.add_comm n]
  exact hword

/-- The last loop, up to the end of the array. -/
theorem Keeping.loop {s : Fill × ℕ} (hw : recurrence.Follows w) (h : Keeping w size len i s.2 s.1.mem)
    (hsize : size ≤ len) (hni : n ≤ i) (hi : i ≤ size) (hij : n + i = size + s.2) (h1 : s.1.r1 = .array (i - 2))
    (h2 : s.1.r2 = .array (i - 1)) :
    ∃ s', (List.range' i (size - i)).foldlM Fill.stepKeep s = .ok s' ∧ Keeping w size len size n s'.1.mem := by
  obtain ⟨s', hs', hkeep, hj, -⟩ := foldlM_range'_ok
    (P := fun i (s : Fill × ℕ) => Keeping w size len i s.2 s.1.mem ∧ n + i = size + s.2 ∧
      s.1.r1 = .array (i - 2) ∧ s.1.r2 = .array (i - 1))
    (f := Fill.stepKeep) (a := i) (n := size - i) (fun k hk hkn s hs => by
      obtain ⟨hkeep, hj, h1, h2⟩ := hs
      obtain ⟨s', hs', hj', hkeep', h1', h2'⟩ := hkeep.step hw (by omega) (by omega) (by omega) hj h1 h2
      exact ⟨s', hs', hkeep', by omega, h1', h2'⟩) ⟨h, hij, h1, h2⟩
  rw [Nat.add_sub_cancel' hi] at hkeep hj
  exact ⟨s', hs', (show s'.2 = n by omega) ▸ hkeep⟩

/-- **`gen_rand_array` writes the words that come after those of the state**, and leaves the last of them in it. -/
theorem genRandArray_window (hw : recurrence.Follows w) (base : ℕ) {array : List W128} (hsize : n ≤ size)
    (hlen : size ≤ array.length) :
    ∃ m', genRandArray ⟨window w base n, array⟩ size = .ok m' ∧ m'.sfmt = window w (base + size) n ∧
      m'.array.take size = window w (base + n) size := by
  have hN : n = 156 := rfl
  have hstart : ArrayFill (fun t => w (base + t)) array.length 0
      ⟨⟨window w base n, array⟩, .sfmt (n - 2), .sfmt (n - 1)⟩ := by
    refine ⟨fun t _ ht => ?_, ?_, ?_, length_window _ _ _, rfl⟩
    · rw [Nat.zero_add] at ht
      rw [place_of_lt ht]
      exact getElem?_window w base ht
    · rw [Nat.zero_add, place_of_lt (by omega)]
    · rw [Nat.zero_add, place_of_lt (by omega)]
  obtain ⟨s₁, s₂, s₃, hs₁, hs₂, hs₃, h₃⟩ := hstart.loops (hw.shift base) hsize hlen
  obtain ⟨m₄, hm₄, h₄⟩ := foldlM_range'_ok (a := 0) (n := 2 * n - size) (f := fun m j => m.keep j (j + size - n))
    (P := fun j m => Keeping (fun t => w (base + t)) size array.length (max n (size - n)) j m)
    (fun j _ hj m hm => hm.keep (by omega) (by omega) (by omega)) h₃.keeping
  rw [Nat.zero_add] at h₄
  have hr1 : s₃.r1 = .array (max n (size - n) - 2) := by
    rw [h₃.r1, place_of_ge (by omega), show max n (size - n) + n - 2 - n = max n (size - n) - 2 by omega]
  have hr2 : s₃.r2 = .array (max n (size - n) - 1) := by
    rw [h₃.r2, place_of_ge (by omega), show max n (size - n) + n - 1 - n = max n (size - n) - 1 by omega]
  obtain ⟨s₅, hs₅, h₅⟩ := Keeping.loop (s := ({ s₃ with mem := m₄ }, 2 * n - size)) (hw.shift base) h₄ hlen
    (le_max_left _ _) (by omega) (by dsimp only; omega) hr1 hr2
  refine ⟨s₅.1.mem, ?_, eq_window h₅.sfmt_length fun j hj => ?_, eq_window ?_ fun j hj => ?_⟩
  · simp only [genRandArray, hs₁, hs₂, hs₃, bind_ok, List.range_eq_range', hm₄, hs₅]
  · rw [Nat.add_assoc]
    exact h₅.kept j hj
  · rw [List.length_take, h₅.array_length]
    omega
  · rw [List.getElem?_take_of_lt hj, Nat.add_assoc]
    exact h₅.array j hj

end Array

/-! ### Words of 32 bits -/

/-- The words of 32 bits of a sequence. -/
def word (w : ℕ → W128) (t : ℕ) : UInt32 := (w (t / 4)).u t

/-- The words of 32 bits of an array. -/
def words (a : List W128) : List UInt32 := a.flatMap fun x => [x.u0, x.u1, x.u2, x.u3]

@[simp] theorem length_words (a : List W128) : (words a).length = 4 * a.length := by
  simp [words, Nat.mul_comm]

theorem words_window (w : ℕ → W128) (base len : ℕ) :
    words (window w base len) = window (word w) (4 * base) (4 * len) := by
  induction len with
  | zero => rfl
  | succ len ih =>
    have hlast : words (window w (base + len) 1) = window (word w) (4 * (base + len)) 4 := by
      have hu : ∀ j < 4, word w (4 * (base + len) + j) = (w (base + len)).u j := by
        intro j hj
        rw [word, show (4 * (base + len) + j) / 4 = base + len by omega, W128.u, W128.u, Nat.mul_add_mod]
      have hrange : List.range 4 = [0, 1, 2, 3] := rfl
      have hu0 : word w (4 * (base + len)) = (w (base + len)).u 0 := hu 0 (by decide)
      simp only [words, window, hrange, List.range_one, List.map_cons, List.map_nil, List.flatMap_cons,
        List.flatMap_nil, List.append_nil, Nat.add_zero, hu0, hu 1 (by decide), hu 2 (by decide), hu 3 (by decide)]
      rfl
    have happend : ∀ a b : List W128, words (a ++ b) = words a ++ words b := fun _ _ => List.flatMap_append
    rw [window_append, happend, ih, hlast, Nat.mul_succ, window_append, ← Nat.mul_add]

theorem psfmt32_window (w : ℕ → W128) (base : ℕ) {i : ℕ} (hi : i < n32) :
    psfmt32 (window w base n) i = .ok (word w (4 * base + i)) := by
  have hlt : i / 4 < n := by
    simp only [n32] at hi
    omega
  rw [psfmt32, arrayAt_eq_ok.mpr (getElem?_window w base hlt), bind_ok, word,
    show (4 * base + i) / 4 = base + i / 4 by omega, W128.u, W128.u, Nat.mul_add_mod]

theorem psfmt64_window (w : ℕ → W128) (base : ℕ) {i : ℕ} (hi : 2 * i + 1 < n32) :
    psfmt64 (window w base n) i = .ok (join (word w (4 * base + 2 * i + 1)) (word w (4 * base + 2 * i))) := by
  rw [psfmt64, psfmt32_window w base (by omega), bind_ok, psfmt32_window w base hi, bind_ok]
  rfl

/-! ### Drawing -/

/-- The generator has handed out `k` words of 32 bits of the sequence; the first `n` words of 128 bits are those it was
initialized with. -/
structure Drawn (w : ℕ → W128) (k : ℕ) (s : State) : Prop where
  follows : recurrence.Follows w
  initialized : s.initialized = true
  sfmt : ∃ base, s.sfmt = window w base n ∧ k + n32 = 4 * base + s.idx
  idx_le : s.idx ≤ n32

section Draw

variable {k : ℕ} {s s' : State}

theorem Drawn.idx_mod (h : Drawn w k s) : s.idx % 2 = k % 2 := by
  obtain ⟨base, -, hk⟩ := h.sfmt
  have hN : n32 = 624 := rfl
  omega

theorem Drawn.refill (h : Drawn w k s) : ∃ s', s.refill = .ok s' ∧ Drawn w k s' ∧ s'.idx < n32 := by
  obtain ⟨base, hsfmt, hk⟩ := h.sfmt
  rcases Nat.lt_or_ge s.idx n32 with hlt | hge
  · refine ⟨s, ?_, h, hlt⟩
    rw [State.refill, if_neg (by omega)]
  · have hidx := h.idx_le
    refine ⟨{ s with sfmt := window w (base + n) n, idx := 0 }, ?_, ⟨h.follows, h.initialized, ⟨base + n, rfl, ?_⟩,
      Nat.zero_le _⟩, Nat.pos_of_ne_zero (by decide)⟩
    · rw [State.refill, if_pos hge, hsfmt, genRandAll_window h.follows, bind_ok]
    · have hN : n32 = 4 * n := rfl
      dsimp only
      omega

/-- **`gen_rand32` hands out the next word.** -/
theorem Drawn.genRand32 (h : Drawn w k s) :
    ∃ s', genRand32 s = .ok (word w (n32 + k), s') ∧ Drawn w (k + 1) s' := by
  obtain ⟨t, ht, hdrawn, hidx⟩ := h.refill
  obtain ⟨base, hsfmt, hk⟩ := hdrawn.sfmt
  refine ⟨{ t with idx := t.idx + 1 }, ?_, hdrawn.follows, hdrawn.initialized, ⟨base, hsfmt, ?_⟩, hidx⟩
  · rw [Sfmt.genRand32, if_neg (by simp [h.initialized]), ht, bind_ok, hsfmt, psfmt32_window w base hidx, bind_ok,
      Nat.add_comm n32, hk]
  · dsimp only
    omega

/-- **`gen_rand64` hands out the next two**, if an even number of words has been drawn. -/
theorem Drawn.genRand64 (h : Drawn w k s) (heven : k % 2 = 0) :
    ∃ s', genRand64 s = .ok (join (word w (n32 + k + 1)) (word w (n32 + k)), s') ∧ Drawn w (k + 2) s' := by
  have hN : n32 = 624 := rfl
  obtain ⟨t, ht, hdrawn, hidx⟩ := h.refill
  obtain ⟨base, hsfmt, hk⟩ := hdrawn.sfmt
  have hmod := hdrawn.idx_mod
  refine ⟨{ t with idx := t.idx + 2 }, ?_, hdrawn.follows, hdrawn.initialized, ⟨base, hsfmt, ?_⟩, ?_⟩
  · have hsmod := h.idx_mod
    rw [Sfmt.genRand64, if_neg (by simp [h.initialized]; omega), ht, bind_ok, hsfmt, psfmt64_window w base (by omega),
      bind_ok, Nat.add_comm n32, hk, show 2 * (t.idx / 2) = t.idx by omega, Nat.add_assoc]
  · dsimp only
    omega
  · dsimp only
    omega

theorem Drawn.genRand64_odd (h : Drawn w k s) (hodd : k % 2 ≠ 0) : Sfmt.genRand64 s = .error .exit := by
  have hmod := h.idx_mod
  rw [Sfmt.genRand64, if_pos (.inr (by omega))]

/-- **`fill_array32` and `fill_array64` hand out as many words as the array has**, if none is left of those computed. -/
theorem Drawn.fillArray {p l : ℕ} {array : List W128} {size : ℤ} (h : Drawn w k s) (hper : 0 < p)
    (hleast : l = n * p) (hidx : s.idx = n32) (hmod : size % p = 0) (hsize : l ≤ size)
    (hfits : (size / p).toNat ≤ array.length) :
    ∃ array' s', fillArray p l s array size = .ok (array', s') ∧
      (words array').take (4 * (size / p).toNat) = window (word w) (n32 + k) (4 * (size / p).toNat) ∧
      Drawn w (k + 4 * (size / p).toNat) s' := by
  have hN : n32 = 4 * n := rfl
  obtain ⟨base, hsfmt, hk⟩ := h.sfmt
  have hn : n ≤ (size / p).toNat := by
    have hle : (n : ℤ) ≤ size / p := by
      apply Int.le_ediv_of_mul_le (by omega)
      have hcast : ((n * p : ℕ) : ℤ) ≤ size := hleast ▸ hsize
      rwa [Nat.cast_mul] at hcast
    omega
  obtain ⟨m, hm, hsfmt', harray⟩ := genRandArray_window h.follows base hn hfits
  refine ⟨m.array, { s with sfmt := m.sfmt, idx := n32 }, ?_, ?_, h.follows, h.initialized, ⟨_, hsfmt', ?_⟩, le_rfl⟩
  · rw [Sfmt.fillArray, if_neg, hsfmt, hm, bind_ok]
    rintro (hinit | hne | hne | hlt)
    · rw [h.initialized] at hinit
      cases hinit
    · exact hne hidx
    · exact hne hmod
    · omega
  · have htake : (words m.array).take (4 * (size / p).toNat) = words (m.array.take (size / p).toNat) := by
      rw [← List.take_append_drop (size / p).toNat m.array]
      have hlen : (words (m.array.take (size / p).toNat)).length = 4 * (size / p).toNat := by
        rw [harray, length_words, length_window]
      rw [words, List.flatMap_append, ← words, ← words, ← hlen, List.take_left, List.take_append_drop]
    rw [htake, harray, words_window]
    congr 1
    omega
  · dsimp only
    omega

end Draw

end Sfmt

end Dedisbench
