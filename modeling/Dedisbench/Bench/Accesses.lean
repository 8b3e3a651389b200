import Dedisbench.Bench.IoDist
import Dedisbench.Lib.Occur
import Dedisbench.Scan.Ranges

/-!
# The histogram of accesses

`write_access_data` counts, for each block, how often it has been accessed, in an array of slots of the same ranges as
those of a distribution.  The array has eight slots and is doubled at most once for a block, and the loop that prints
it stops at the first decade that has no block in its lower half.  So the file has all ranges only of some arrays of
counts (`accesses_complete_iff`).
-/

namespace Dedisbench

open ExceptRun

/-- The number of slots at the start. -/
def acsLen : ℕ := 8

/-- A block is counted in its slot; the array is doubled once if the slot is outside. -/
def countInSlot (acs : List UInt64) (accesses : UInt64) : Exec (List UInt64) :=
  let arrPos := arrPos accesses
  let acs := growDups acs arrPos
  match acs[arrPos]? with
  | none => .error .undefined
  | some n => .ok (acs.set arrPos (n + 1))

/-- The variables of the aggregation, and what has been written to the file of accesses. -/
structure AccessState where
  acs : List UInt64
  posTouched : UInt64
  bytesProcessed : UInt64
  fpp : List Char

/-- One round of the aggregation, for block `x.2`. -/
def accessStep (blockSize : UInt64) (s : AccessState) (x : UInt64 × ℕ) : Exec AccessState := do
  let acs ← countInSlot s.acs x.1
  .ok {
    acs
    posTouched := if 0 < x.1 then s.posTouched + 1 else s.posTouched
    bytesProcessed := if 0 < x.1 then s.bytesProcessed + blockSize * x.1 else s.bytesProcessed
    fpp := s.fpp ++ Text.decimal x.2 ++ ' ' :: Text.decimal x.1.toNat ++ ['\n'] }

/-- The loop that prints the slots: it ends at a decade with an empty lower half. -/
def accessLines : List UInt64 → ℤ → ℤ → List CumulLine
  | [], _, _ => []
  | [d], init, final => if d = 0 then [] else [.range init (final >>> (1 : ℕ)) d]
  | d :: d' :: acs, init, final =>
    if d = 0 then []
    else .range init (final >>> (1 : ℕ)) d :: (if d' ≠ 0 then [.range (final >>> (1 : ℕ)) final d'] else []) ++
      accessLines acs final (intMul final 10)

/-- What `write_access_data` writes and prints. -/
structure AccessData where
  fpp : List Char
  mode : List Char
  fpcumul : List CumulLine
  posTouched : UInt64
  bytesProcessed : UInt64

/-- `mode` -/
def AccessType.mode : AccessType → List Char
  | .sequential => "sequential".toList
  | .uniform => "uniform".toList
  | .tpcc => "hotspot".toList

/-- `write_access_data` -/
def writeAccessData (accesstype : AccessType) (blockSize : UInt64) (accessesarray : List UInt64) : Exec AccessData := do
  let s ← accessesarray.zipIdx.foldlM (accessStep blockSize) ⟨List.replicate acsLen 0, 0, 0, []⟩
  .ok ⟨s.fpp, accesstype.mode, accessLines (s.acs.drop 1) 1 10, s.posTouched, s.bytesProcessed⟩

/-! ### What the file is for -/

/-- The blocks whose count falls in the range of slot `p`. -/
def blocksIn (accesses : List UInt64) (p : ℕ) : ℕ :=
  accesses.countP fun c => rangeStart p ≤ c.toNat ∧ c.toNat < rangeStart (p + 1)

/-- **The histogram of counts below `10 ^ 8`**: a line for each range that has a block, with their number. -/
def rangesOf (accesses : List UInt64) : List CumulLine :=
  (List.range' 1 16).filterMap fun p =>
    if blocksIn accesses p = 0 then none
    else some (.range (rangeStart p) (rangeStart (p + 1)) (.ofNat (blocksIn accesses p)))

section Counts

variable {accesses : List UInt64} {acs acs' : List UInt64} {c : UInt64} {p : ℕ}

/-! ### Slots are ranges -/

theorem arrPos_eq_iff (hc : c.toNat < 10 ^ 9) (hp : 1 ≤ p) :
    arrPos c = p ↔ rangeStart p ≤ c.toNat ∧ c.toNat < rangeStart (p + 1) := by
  constructor
  · rintro rfl
    have hne : c ≠ 0 := fun hzero => by
      rw [hzero, arrPos_zero] at hp
      exact absurd hp (by decide)
    exact ⟨(rangeStart_arrPos hne hc).1, (rangeStart_arrPos hne hc).2.1⟩
  · intro hin
    have hone : 1 ≤ rangeStart p := rangeStart_mono le_rfl hp
    have hne : c ≠ 0 := fun hzero => by
      have hle : rangeStart p ≤ 0 := by simpa [hzero] using hin.1
      omega
    obtain ⟨hlo, hhi, -⟩ := rangeStart_arrPos hne hc
    exact eq_of_inRange ⟨hlo, hhi⟩ hin

theorem le_arrPos_iff (hc : c.toNat < 10 ^ 9) (hp : 1 ≤ p) : p ≤ arrPos c ↔ rangeStart p ≤ c.toNat := by
  constructor
  · intro hle
    exact (rangeStart_mono hp hle).trans ((arrPos_eq_iff hc (hp.trans hle)).mp rfl).1
  · intro hle
    have hone : 1 ≤ rangeStart p := rangeStart_mono le_rfl hp
    have hpos : 1 ≤ arrPos c := arrPos_pos.mpr (by omega)
    by_contra hlt
    have hmono := rangeStart_mono (Nat.succ_pos (arrPos c)) (show arrPos c + 1 ≤ p by omega)
    have hin := ((arrPos_eq_iff hc hpos).mp rfl).2
    exact absurd (hin.trans_le (hmono.trans hle)) (lt_irrefl _)

theorem blocksIn_eq (h : ∀ c ∈ accesses, c.toNat < 10 ^ 8) (hp : 1 ≤ p) :
    blocksIn accesses p = accesses.countP fun c => arrPos c = p := by
  refine List.countP_congr fun c hc => ?_
  have hlt := h c hc
  simp only [decide_eq_true_eq]
  exact (arrPos_eq_iff (by omega) hp).symm

/-! ### The aggregation -/

/-- Slot by slot, the blocks counted so far, each of which has a slot. -/
structure AcsOf (accesses acs : List UInt64) : Prop where
  getElem : ∀ p < acs.length, acs[p]? = some (.ofNat (accesses.countP fun c => arrPos c = p))
  below : ∀ c ∈ accesses, arrPos c < acs.length

theorem AcsOf.init : AcsOf [] (List.replicate acsLen 0) := by
  refine ⟨fun p hp => ?_, fun c hc => by cases hc⟩
  rw [List.length_replicate] at hp
  rw [List.getElem?_replicate, if_pos hp]
  rfl

theorem length_growDups (acs : List UInt64) (p : ℕ) :
    (growDups acs p).length = if acs.length ≤ p then 2 * acs.length else acs.length := by
  unfold growDups
  split
  · rw [List.length_append, List.length_replicate, Nat.two_mul]
  · rfl

theorem AcsOf.grow (h : AcsOf accesses acs) (p : ℕ) : AcsOf accesses (growDups acs p) := by
  have hlen := length_growDups acs p
  unfold growDups at hlen ⊢
  split at hlen
  next hle =>
    rw [if_pos hle]
    refine ⟨fun q hq => ?_, fun c hc => ?_⟩
    · by_cases hin : q < acs.length
      · rw [List.getElem?_append_left hin, h.getElem q hin]
      · -- a new slot, and no block has had it
        have hnone : (accesses.countP fun c => arrPos c = q) = 0 := by
          refine List.countP_eq_zero.mpr fun c hc => ?_
          have hlt := h.below c hc
          simp only [decide_eq_true_eq]
          omega
        rw [List.getElem?_append_right (not_lt.mp hin), List.getElem?_replicate, hnone, if_pos (by omega)]
        rfl
    · have hlt := h.below c hc
      omega
  next hnot =>
    rw [if_neg hnot]
    exact h

/-- A block is counted if its slot is in the array, or in one of twice the size. -/
theorem AcsOf.count (h : AcsOf accesses acs) (hc : arrPos c < (growDups acs (arrPos c)).length) :
    ∃ acs', countInSlot acs c = .ok acs' ∧ AcsOf (accesses ++ [c]) acs' ∧
      acs'.length = (growDups acs (arrPos c)).length := by
  have hgrow := h.grow (arrPos c)
  have hget := hgrow.getElem _ hc
  have hcount : countInSlot acs c = .ok ((growDups acs (arrPos c)).set (arrPos c)
      (.ofNat (accesses.countP fun x => arrPos x = arrPos c) + 1)) := by
    simp only [countInSlot, hget]
  refine ⟨_, hcount, ⟨fun p hp => ?_, fun x hx => ?_⟩, List.length_set⟩
  · rw [List.length_set] at hp
    rw [List.countP_append, List.countP_singleton]
    by_cases heq : arrPos c = p
    · subst heq
      rw [List.getElem?_set_self hc, if_pos (by simp)]
      simp
    · rw [List.getElem?_set_ne heq, hgrow.getElem p hp, if_neg (by simpa using heq), Nat.add_zero]
  · rw [List.length_set]
    rcases List.mem_append.mp hx with hx | hx
    · exact hgrow.below x hx
    · rwa [List.mem_singleton.mp hx]

theorem countInSlot_undefined (hc : (growDups acs (arrPos c)).length ≤ arrPos c) :
    countInSlot acs c = .error .undefined := by
  simp only [countInSlot, List.getElem?_eq_none hc]

/-- **When every block finds a slot**, for counts below `10 ^ 8`, which have sixteen: the first block that needs more
than eight slots must not need more than sixteen. -/
theorem foldlM_countInSlot (hlt : ∀ c ∈ accesses, c.toNat < 10 ^ 8) {before : List UInt64} (h : AcsOf before acs)
    (hlen : 16 ≤ acs.length ∨ acs.length = acsLen ∧
      ∀ c, accesses.find? (fun c => 5000 ≤ c.toNat) = some c → c.toNat < 50000000) :
    ∃ acs', accesses.foldlM countInSlot acs = .ok acs' ∧ AcsOf (before ++ accesses) acs' := by
  induction accesses generalizing before acs with
  | nil => exact ⟨acs, rfl, by rwa [List.append_nil]⟩
  | cons c accesses ih =>
    have hc := hlt c List.mem_cons_self
    have hgrow := length_growDups acs (arrPos c)
    have h17 : arrPos c < 17 := by
      by_contra hge
      have hle := (le_arrPos_iff (p := 17) (by omega) (by decide)).mp (not_lt.mp hge)
      have hstart : rangeStart 17 = 10 ^ 8 := rangeStart_odd 8
      omega
    have h8 : 8 ≤ arrPos c ↔ 5000 ≤ c.toNat := le_arrPos_iff (by omega) (by decide)
    have h16 : 16 ≤ arrPos c ↔ 50000000 ≤ c.toNat := le_arrPos_iff (by omega) (by decide)
    -- the slot is in the array, which has its first size as long as no block has needed more
    have hin : arrPos c < (growDups acs (arrPos c)).length ∧ (16 ≤ (growDups acs (arrPos c)).length ∨
        (growDups acs (arrPos c)).length = acsLen ∧
          ∀ x, accesses.find? (fun c => 5000 ≤ c.toNat) = some x → x.toNat < 50000000) := by
      rcases hlen with hlen | ⟨hlen, hfind⟩
      · split at hgrow
        · exact ⟨by omega, .inl (by omega)⟩
        · exact ⟨by omega, .inl (by omega)⟩
      · have hacs : acsLen = 8 := rfl
        rw [List.find?_cons] at hfind
        by_cases hbig : 5000 ≤ c.toNat
        · rw [decide_eq_true hbig] at hfind
          have hless := hfind c rfl
          rw [if_pos (by omega)] at hgrow
          exact ⟨by omega, .inl (by omega)⟩
        · rw [decide_eq_false hbig] at hfind
          rw [if_neg (by omega)] at hgrow
          exact ⟨by omega, .inr ⟨by omega, hfind⟩⟩
    obtain ⟨acs₁, hcount, hacs₁, hlen₁⟩ := h.count hin.1
    rw [← hlen₁] at hin
    obtain ⟨acs', hrun, hacs'⟩ := ih (fun x hx => hlt x (List.mem_cons_of_mem c hx)) hacs₁ hin.2
    refine ⟨acs', foldlM_cons_eq_ok.mpr ⟨acs₁, hcount, hrun⟩, ?_⟩
    rwa [List.append_assoc, List.singleton_append] at hacs'

/-- Otherwise the block is counted outside the array. -/
theorem foldlM_countInSlot_undefined (hlt : ∀ c ∈ accesses, c.toNat < 10 ^ 8) {before : List UInt64}
    (h : AcsOf before acs) (hlen : acs.length = acsLen)
    (hfind : accesses.find? (fun c => 5000 ≤ c.toNat) = some c) (hc : 50000000 ≤ c.toNat) :
    accesses.foldlM countInSlot acs = .error .undefined := by
  induction accesses generalizing before acs with
  | nil => cases hfind
  | cons x accesses ih =>
    have hx := hlt x List.mem_cons_self
    have hgrow := length_growDups acs (arrPos x)
    have hacs : acsLen = 8 := rfl
    have h8 : 8 ≤ arrPos x ↔ 5000 ≤ x.toNat := le_arrPos_iff (by omega) (by decide)
    rw [List.find?_cons] at hfind
    by_cases hbig : 5000 ≤ x.toNat
    · rw [decide_eq_true hbig] at hfind
      obtain rfl : x = c := Option.some.inj hfind
      have h16 : 16 ≤ arrPos x := (le_arrPos_iff (by omega) (by decide)).mpr hc
      rw [if_pos (by omega)] at hgrow
      rw [List.foldlM_cons, countInSlot_undefined (by omega), bind_error]
    · rw [decide_eq_false hbig] at hfind
      rw [if_neg (by omega)] at hgrow
      obtain ⟨acs₁, hcount, hacs₁, hlen₁⟩ := h.count (c := x) (by omega)
      rw [List.foldlM_cons, hcount, bind_ok]
      exact ih (fun y hy => hlt y (List.mem_cons_of_mem x hy)) hacs₁ (by omega) hfind

/-! ### The lines -/

/-- What is printed is the start of all the lines. -/
theorem accessLines_prefix : ∀ (acs : List UInt64) (m : ℕ),
    accessLines acs (labelInit m) (labelFinal m) <+: slotLines acs (2 * m + 1)
  | [], _ => List.nil_prefix
  | [d], m => by
    rw [accessLines, slotLines_cons, slotLabel_odd]
    split
    next => exact List.nil_prefix
    next => exact List.prefix_append _ _
  | d :: d' :: acs, m => by
    rw [accessLines, slotLines_cons, slotLines_cons, slotLabel_odd, slotLabel_even]
    by_cases hd : d = 0
    · rw [if_pos hd]
      exact List.nil_prefix
    · rw [if_neg hd, if_pos hd, List.cons_append, List.singleton_append, List.cons_prefix_cons]
      exact ⟨rfl, (List.prefix_append_right_inj _).mpr ( accessLines_prefix acs (m + 1))⟩

/-- Below a slot that is not empty, no decade has an empty lower half. -/
def NoGap (acs : List UInt64) : Prop :=
  ∀ (i : ℕ) (d : UInt64), acs[i]? = some d → d ≠ 0 → ∀ j, 2 * j ≤ i → acs[2 * j]? ≠ some 0

theorem noGap_zero_cons : NoGap (0 :: acs) ↔ ∀ d ∈ acs, d = 0 := by
  constructor
  · intro h d hd
    by_contra hne
    obtain ⟨i, hi⟩ := List.mem_iff_getElem?.mp hd
    exact h (i + 1) d hi hne 0 (Nat.zero_le _) rfl
  · intro h i d hi hne
    cases i with
    | zero => exact absurd (Option.some.inj hi).symm hne
    | succ i => exact absurd (h d (List.mem_of_getElem? hi)) hne

theorem noGap_cons_cons {d d' : UInt64} (hd : d ≠ 0) : NoGap (d :: d' :: acs) ↔ NoGap acs := by
  constructor
  · intro h i x hi hne j hj
    exact h (i + 2) x hi hne (j + 1) (by omega)
  · intro h i x hi hne j hj
    cases j with
    | zero => exact fun hzero => hd (Option.some.inj hzero)
    | succ j =>
      obtain ⟨k, rfl⟩ : ∃ k, i = k + 2 := ⟨i - 2, by omega⟩
      exact h k x hi hne j (by omega)

/-- **When all lines are printed.** -/
theorem accessLines_eq_iff : ∀ (acs : List UInt64) (m : ℕ),
    accessLines acs (labelInit m) (labelFinal m) = slotLines acs (2 * m + 1) ↔ NoGap acs
  | [], _ => ⟨fun _ i d hi => by simp at hi, fun _ => rfl⟩
  | [d], m => by
    rw [accessLines, slotLines_cons, slotLabel_odd]
    by_cases hd : d = 0
    · subst hd
      rw [noGap_zero_cons]
      exact ⟨fun _ x hx => absurd hx List.not_mem_nil, fun _ => rfl⟩
    · rw [if_neg hd, if_pos hd]
      refine ⟨fun _ i x hi hne j hj => ?_, fun _ => rfl⟩
      obtain ⟨hlt, -⟩ := List.getElem?_eq_some_iff.mp hi
      have hi0 : i = 0 := Nat.lt_one_iff.mp hlt
      rw [show 2 * j = 0 by omega]
      exact fun hzero => hd (Option.some.inj hzero)
  | d :: d' :: acs, m => by
    rw [accessLines, slotLines_cons, slotLines_cons, slotLabel_odd, slotLabel_even]
    by_cases hd : d = 0
    · subst hd
      rw [if_pos rfl, noGap_zero_cons, ← slotLines_eq_nil (p := 2 * m + 2), slotLines_cons, slotLabel_even]
      exact eq_comm
    · rw [if_neg hd, if_pos hd, noGap_cons_cons hd, List.cons_append, List.singleton_append, List.cons_inj_right,
        List.append_cancel_left_eq]
      exact accessLines_eq_iff acs (m + 1)

/-- The slots from number `s` on, in order. -/
theorem zipIdx_map_range' (f : ℕ → UInt64) (s n : ℕ) :
    ((List.range' s n).map f).zipIdx s = (List.range' s n).map fun p => (f p, p) := by
  induction n generalizing s with
  | zero => rfl
  | succ n ih => rw [List.range'_succ, List.map_cons, List.map_cons, List.zipIdx_cons, ih]

/-- What is behind the last element that is kept does not count. -/
theorem filterMap_range' {β : Type*} {f : ℕ → Option β} {m n : ℕ} (h : ∀ p, m < p → p ≤ n → f p = none)
    (h' : ∀ p, n < p → p ≤ m → f p = none) : (List.range' 1 m).filterMap f = (List.range' 1 n).filterMap f := by
  wlog hmn : m ≤ n generalizing m n
  · exact (this h' h (by omega)).symm
  obtain ⟨k, rfl⟩ := Nat.exists_eq_add_of_le hmn
  have hnone : (List.range' (1 + m) k).filterMap f = [] := by
    refine List.filterMap_eq_nil_iff.mpr fun p hp => ?_
    obtain ⟨hlo, hhi⟩ := List.mem_range'_1.mp hp
    exact h p (by omega) (by omega)
  rw [show List.range' 1 (m + k) = List.range' 1 m ++ List.range' (1 + m) k by rw [List.range'_append_1],
    List.filterMap_append, hnone, List.append_nil]

theorem AcsOf.drop_eq (h : AcsOf accesses acs) : acs.drop 1 =
    (List.range' 1 (acs.length - 1)).map fun p => .ofNat (accesses.countP fun c => arrPos c = p) := by
  refine List.ext_getElem? fun i => ?_
  rw [List.getElem?_drop, List.getElem?_map]
  by_cases hi : 1 + i < acs.length
  · rw [h.getElem _ hi, List.getElem?_range' (by omega), Nat.one_mul]
    rfl
  · rw [List.getElem?_eq_none (not_lt.mp hi), List.getElem?_eq_none (by rw [List.length_range']; omega)]
    rfl

theorem ofNat_eq_zero {n : ℕ} (h : n < 2 ^ 64) : UInt64.ofNat n = 0 ↔ n = 0 := by
  rw [← UInt64.toNat_inj, UInt64.toNat_ofNat_of_lt' h]
  rfl

theorem countP_lt (hlen : accesses.length < 2 ^ 64) (f : UInt64 → Bool) : accesses.countP f < 2 ^ 64 :=
  List.countP_le_length.trans_lt hlen

/-- **All lines of the slots are the histogram.** -/
theorem AcsOf.slotLines_eq (h : AcsOf accesses acs) (hlt : ∀ c ∈ accesses, c.toNat < 10 ^ 8)
    (hlen : accesses.length < 2 ^ 64) : slotLines (acs.drop 1) 1 = rangesOf accesses := by
  have hnone : ∀ p, 16 < p → blocksIn accesses p = 0 := by
    intro p hp
    refine List.countP_eq_zero.mpr fun c hc => ?_
    have hstart : rangeStart 17 = 10 ^ 8 := rangeStart_odd 8
    have hmono := rangeStart_mono (p := 17) (q := p) (by decide) hp
    have hless := hlt c hc
    simp only [decide_eq_true_eq]
    omega
  rw [slotLines, h.drop_eq, zipIdx_map_range', List.filterMap_map, rangesOf]
  refine Eq.trans (List.filterMap_congr fun p hp => ?_)
    (filterMap_range' (n := 16) (fun p hp hp' => ?_) fun p hp hp' => if_pos (hnone p hp))
  · obtain ⟨hp, -⟩ := List.mem_range'_1.mp hp
    rw [Function.comp_apply, ← blocksIn_eq hlt hp]
    have hzero : UInt64.ofNat (blocksIn accesses p) = 0 ↔ blocksIn accesses p = 0 := ofNat_eq_zero (countP_lt hlen _)
    by_cases hempty : blocksIn accesses p = 0
    · rw [if_pos (hzero.mpr hempty), if_pos hempty]
    · have hp16 : p ≤ 16 := by
        by_contra hgt
        exact hempty (hnone p (by omega))
      rw [if_neg (mt hzero.mp hempty), if_neg hempty, slotLabel_eq hp (by omega)]
  · refine if_pos ?_
    rw [blocksIn_eq hlt (by omega)]
    refine List.countP_eq_zero.mpr fun c hc => ?_
    have hless := h.below c hc
    simp only [decide_eq_true_eq]
    omega

/-- In terms of the counts: every power of ten that one of them reaches starts the lower half of a decade with a block. -/
theorem AcsOf.noGap_iff (h : AcsOf accesses acs) (hlt : ∀ c ∈ accesses, c.toNat < 10 ^ 8)
    (hlen : accesses.length < 2 ^ 64) : NoGap (acs.drop 1) ↔
      ∀ c ∈ accesses, ∀ j, 10 ^ j ≤ c.toNat → ∃ c' ∈ accesses, 10 ^ j ≤ c'.toNat ∧ c'.toNat < 5 * 10 ^ j := by
  have hslot : ∀ p d, acs[p]? = some d → (d ≠ 0 ↔ ∃ c ∈ accesses, arrPos c = p) := by
    intro p d hp
    have hlen' := (List.getElem?_eq_some_iff.mp hp).1
    rw [h.getElem p hlen', Option.some.injEq] at hp
    rw [← hp, ne_eq, ofNat_eq_zero (countP_lt hlen _), ← ne_eq, ← Nat.pos_iff_ne_zero, List.countP_pos_iff]
    simp only [decide_eq_true_eq]
  have hodd : ∀ c ∈ accesses, ∀ j, arrPos c = 2 * j + 1 ↔ 10 ^ j ≤ c.toNat ∧ c.toNat < 5 * 10 ^ j := by
    intro c hc j
    have hless := hlt c hc
    rw [arrPos_eq_iff (by omega) (by omega), rangeStart_odd, show 2 * j + 1 + 1 = 2 * j + 2 by ring, rangeStart_even]
  have hge : ∀ c ∈ accesses, ∀ j, 2 * j + 1 ≤ arrPos c ↔ 10 ^ j ≤ c.toNat := by
    intro c hc j
    have hless := hlt c hc
    rw [le_arrPos_iff (by omega) (by omega), rangeStart_odd]
  constructor
  · intro hgap c hc j hj
    have hpos := (hge c hc j).mpr hj
    have hc' := h.below c hc
    -- the slot of the count, and the lower half of the decade below it
    have hi : (acs.drop 1)[arrPos c - 1]? = some acs[arrPos c] := by
      rw [List.getElem?_drop, show 1 + (arrPos c - 1) = arrPos c by omega, List.getElem?_eq_getElem hc']
    have hne := (hslot _ _ (List.getElem?_eq_getElem hc')).mpr ⟨c, hc, rfl⟩
    have hlow := hgap _ _ hi hne j (by omega)
    have hget : (acs.drop 1)[2 * j]? = some (acs[2 * j + 1]) := by
      rw [List.getElem?_drop, Nat.add_comm, List.getElem?_eq_getElem]
    rw [hget, ne_eq, Option.some.injEq] at hlow
    obtain ⟨c', hmem, harr⟩ := (hslot _ _ (List.getElem?_eq_getElem (by omega))).mp hlow
    exact ⟨c', hmem, (hodd c' hmem j).mp harr⟩
  · intro hall i d hi hne j hj hzero
    rw [List.getElem?_drop] at hi hzero
    obtain ⟨c, hc, harr⟩ := (hslot _ _ hi).mp hne
    obtain ⟨c', hc', hin⟩ := hall c hc j ((hge c hc j).mp (by omega))
    exact (hslot _ _ hzero).mpr ⟨c', hc', by rw [(hodd c' hc' j).mpr hin, Nat.add_comm]⟩ rfl

/-- The aggregation counts every block, whatever else it does. -/
theorem foldlM_accessStep (blockSize : UInt64) (accesses : List UInt64) (k : ℕ) (s : AccessState) :
    ((accesses.zipIdx k).foldlM (accessStep blockSize) s).map AccessState.acs = accesses.foldlM countInSlot s.acs := by
  induction accesses generalizing k s with
  | nil => rfl
  | cons c accesses ih =>
    rw [List.zipIdx_cons, List.foldlM_cons, List.foldlM_cons, accessStep]
    cases hcount : countInSlot s.acs c with
    | error e => rfl
    | ok acs => exact ih (k + 1) _

theorem writeAccessData_map (accesstype : AccessType) (blockSize : UInt64) (accesses : List UInt64) :
    (writeAccessData accesstype blockSize accesses).map AccessData.fpcumul =
      (accesses.foldlM countInSlot (List.replicate acsLen 0)).map fun acs => accessLines (acs.drop 1) 1 10 := by
  have hfold := foldlM_accessStep blockSize accesses 0 ⟨List.replicate acsLen 0, 0, 0, []⟩
  rw [← hfold, writeAccessData]
  cases accesses.zipIdx.foldlM (accessStep blockSize) ⟨List.replicate acsLen 0, 0, 0, []⟩ with
  | error e => rfl
  | ok s => rfl

/-- The numbers of the histogram add up to the blocks that have been accessed. -/
theorem printed_rangesOf (hlt : ∀ c ∈ accesses, c.toNat < 10 ^ 8) (hlen : accesses.length < 2 ^ 64) :
    printed (rangesOf accesses) = accesses.countP fun c => 0 < c.toNat := by
  have hprinted : ∀ l : List ℕ, printed (l.filterMap fun p => if blocksIn accesses p = 0 then none
      else some (.range (rangeStart p) (rangeStart (p + 1)) (.ofNat (blocksIn accesses p)))) =
        (l.map (blocksIn accesses)).sum := by
    intro l
    induction l with
    | nil => rfl
    | cons p l ih =>
      rw [List.filterMap_cons, List.map_cons, List.sum_cons, ← ih]
      by_cases hzero : blocksIn accesses p = 0
      · rw [if_pos hzero, hzero, Nat.zero_add]
      · rw [if_neg hzero]
        simp only [printed, List.map_cons, total_cons, CumulLine.count,
          UInt64.toNat_ofNat_of_lt' (countP_lt hlen _), blocksIn]
  have hslots : ∀ p ∈ List.range' 1 16, blocksIn accesses p =
      ((accesses.filter fun c => 0 < c.toNat).map arrPos).count p := by
    intro p hp
    obtain ⟨hp, -⟩ := List.mem_range'_1.mp hp
    rw [blocksIn_eq hlt hp, List.count, List.countP_map, List.countP_filter]
    refine List.countP_congr fun c _ => ?_
    simp only [Function.comp_apply, decide_eq_true_eq, Bool.and_eq_true, beq_iff_eq]
    exact ⟨fun harr => ⟨harr, arrPos_pos.mp (by omega)⟩, fun harr => harr.1⟩
  have hsum : ((List.range' 1 16).map (blocksIn accesses)).sum =
      ∑ i ∈ Finset.range 16, ((accesses.filter fun c => 0 < c.toNat).map arrPos).count (1 + i) := by
    rw [List.map_congr_left hslots]
    rfl
  rw [rangesOf, hprinted, hsum, List.countP_eq_length_filter, ← List.length_map (f := arrPos),
    Occur.sum_count_range_eq_length]
  intro p hp
  obtain ⟨c, hc, rfl⟩ := List.mem_map.mp hp
  obtain ⟨hc, hpos⟩ := List.mem_filter.mp hc
  have hless := hlt c hc
  have hstart : rangeStart 17 = 10 ^ 8 := rangeStart_odd 8
  have h17 := (le_arrPos_iff (c := c) (p := 17) (by omega) (by decide)).not
  exact ⟨arrPos_pos.mpr (of_decide_eq_true hpos), by omega⟩

/-- **When the histogram of accesses is complete**, for counts below `10 ^ 8`: the first block with 5000 accesses has
less than 50000000, and every power of ten that a count reaches starts a decade with a block in its lower half. -/
theorem accesses_complete_iff (accesstype : AccessType) (blockSize : UInt64) (hlen : accesses.length < 2 ^ 64)
    (hlt : ∀ c ∈ accesses, c.toNat < 10 ^ 8) :
    ((∃ out, writeAccessData accesstype blockSize accesses = .ok out ∧ out.fpcumul = rangesOf accesses) ↔
      (∀ c, accesses.find? (fun c => 5000 ≤ c.toNat) = some c → c.toNat < 50000000) ∧
      ∀ c ∈ accesses, ∀ j, 10 ^ j ≤ c.toNat → ∃ c' ∈ accesses, 10 ^ j ≤ c'.toNat ∧ c'.toNat < 5 * 10 ^ j) ∧
    printed (rangesOf accesses) = accesses.countP fun c => 0 < c.toNat := by
  refine ⟨?_, printed_rangesOf hlt hlen⟩
  have hmap := writeAccessData_map accesstype blockSize accesses
  by_cases hfirst : ∀ c, accesses.find? (fun c => 5000 ≤ c.toNat) = some c → c.toNat < 50000000
  · obtain ⟨acs, hrun, hacs⟩ := foldlM_countInSlot hlt .init (.inr ⟨List.length_replicate, hfirst⟩)
    rw [List.nil_append] at hacs
    rw [hrun] at hmap
    have hlines : accessLines (acs.drop 1) 1 10 = rangesOf accesses ↔ NoGap (acs.drop 1) := by
      rw [← hacs.slotLines_eq hlt hlen]
      exact accessLines_eq_iff (acs.drop 1) 0
    rw [and_iff_right hfirst, ← hacs.noGap_iff hlt hlen, ← hlines]
    cases hout : writeAccessData accesstype blockSize accesses with
    | error e =>
      rw [hout] at hmap
      cases hmap
    | ok out =>
      rw [hout] at hmap
      have hout : out.fpcumul = accessLines (acs.drop 1) 1 10 := Except.ok.inj hmap
      rw [← hout]
      exact ⟨fun ⟨out', heq, hranges⟩ => Except.ok.inj heq ▸ hranges, fun hranges => ⟨out, rfl, hranges⟩⟩
  · simp only [not_forall, not_lt] at hfirst
    obtain ⟨c, hfind, hc⟩ := hfirst
    rw [foldlM_countInSlot_undefined hlt .init List.length_replicate hfind hc] at hmap
    refine ⟨fun ⟨out, hout, _⟩ => ?_, fun hcond => absurd (hcond.1 c hfind) (not_lt.mpr hc)⟩
    rw [hout] at hmap
    cases hmap

/-! ### Slots of all keys -/

/-- The slot of the key is in an array of at least `len` slots, doubled at most once, and its label contains the key. -/
structure KeyInSlot (len : ℕ) (key : UInt64) : Prop where
  inside : ∀ slots : List UInt64, len ≤ slots.length → arrPos key < (growDups slots (arrPos key)).length
  labelled : Labelled key

theorem inside_of_lt {len : ℕ} {slots : List UInt64} (hlen : len ≤ slots.length) (hp : p < 2 * len) :
    p < (growDups slots p).length := by
  rw [length_growDups]
  split <;> omega

/-- **When slot and label of a key are right.**  The array of a distribution has enough slots for every key, and the
labels are right below 1410065408; the array of accesses has enough of them below 50000000.  Both loops print the slots
with these labels, the one of the accesses as far as it goes. -/
theorem slots_labelled_iff {key : UInt64} (h : key ≠ 0) :
    (KeyInSlot dupsLen key ↔ key.toNat < 1410065408) ∧ (KeyInSlot acsLen key ↔ key.toNat < 50000000) ∧
    (∀ dups : List UInt64, rangeLines (dups.drop 1) 1 10 = slotLines (dups.drop 1) 1) ∧
    ∀ acs : List UInt64, accessLines (acs.drop 1) 1 10 <+: slotLines (acs.drop 1) 1 := by
  refine ⟨?_, ?_, fun dups => rangeLines_eq _ 0, fun acs => accessLines_prefix _ 0⟩
  · refine ⟨fun hright => (labelled_iff h).mp hright.labelled,
      fun hlt => ⟨fun slots hlen => ?_, (labelled_iff h).mpr hlt⟩⟩
    have hle := (arrPos_bounds h).2
    exact inside_of_lt hlen (by rw [dupsLen]; omega)
  · constructor
    · intro hright
      have hlt := (labelled_iff h).mp hright.labelled
      have hin := hright.inside (List.replicate acsLen 0) List.length_replicate.ge
      have h16 : arrPos key < 16 := by
        rw [length_growDups, List.length_replicate, acsLen] at hin
        split at hin <;> omega
      by_cases hsmall : key.toNat < 10 ^ 9
      · have hge := (le_arrPos_iff (p := 16) hsmall (by decide)).not.mp (not_le.mpr h16)
        exact not_le.mp hge
      · rw [arrPos_of_wrapped (not_lt.mp hsmall) (by omega), if_pos hlt] at h16
        omega
    · intro hlt
      refine ⟨fun slots hlen => inside_of_lt hlen ?_, (labelled_iff h).mpr (by omega)⟩
      have hge := (le_arrPos_iff (c := key) (p := 16) (by omega) (by decide)).not.mpr (not_le.mpr hlt)
      exact not_le.mp hge

end Counts

/-- Three blocks in three ranges. -/
theorem threeRanges_complete : ∃ out, writeAccessData .uniform 4096 [2, 7, 0, 30] = .ok out ∧
    out.fpcumul = rangesOf [2, 7, 0, 30] := by
  refine (accesses_complete_iff .uniform 4096 (by simp) (by simp)).1.mpr ⟨fun c hfind => ?_, fun c hc j hj => ?_⟩
  · have hnone : ([2, 7, 0, 30] : List UInt64).find? (fun c => 5000 ≤ c.toNat) = none := by decide
    rw [hnone] at hfind
    cases hfind
  · have hsmall : c.toNat < 100 := by
      simp only [List.mem_cons, List.not_mem_nil, or_false] at hc
      rcases hc with rfl | rfl | rfl | rfl <;> decide
    have hj : 10 ^ j < 10 ^ 2 := hj.trans_lt (hsmall.trans_eq (by norm_num))
    have hj := (Nat.pow_lt_pow_iff_right (by decide)).mp hj
    rcases show j = 0 ∨ j = 1 by omega with rfl | rfl
    · exact ⟨2, by decide, by decide, by decide⟩
    · exact ⟨30, by decide, by decide, by decide⟩

/-- Two blocks that have been accessed five times each are not in the file, and one with fifty million accesses is
counted outside the array. -/
theorem upperHalf_not_printed :
    (∃ out, writeAccessData .sequential 4096 [5, 5] = .ok out ∧ out.fpcumul = [] ∧
      rangesOf [5, 5] = [.range 5 10 2] ∧ out.fpcumul ≠ rangesOf [5, 5]) ∧
    writeAccessData .sequential 4096 [50000000] = .error .undefined := by
  have h : okWith (writeAccessData .sequential 4096 [5, 5]) fun out => out.fpcumul = [] := by decide +kernel
  obtain ⟨out, hout, h⟩ := exists_of_okWith h
  have hnone : out.fpcumul = [] := of_decide_eq_true h
  have hranges : rangesOf [5, 5] = [.range 5 10 2] := by decide +kernel
  have hfails : failsWith (writeAccessData .sequential 4096 [50000000]) .undefined := by decide +kernel
  refine ⟨⟨out, hout, hnone, hranges, ?_⟩, eq_error_of_failsWith hfails⟩
  rw [hnone, hranges]
  exact (List.cons_ne_nil _ _).symm

/-- The slot of a key that is usual. -/
theorem seven_labelled : KeyInSlot dupsLen 7 ∧ KeyInSlot acsLen 7 := by
  obtain ⟨hdups, hacs, -⟩ := slots_labelled_iff (show (7 : UInt64) ≠ 0 by decide)
  exact ⟨hdups.mpr (by decide), hacs.mpr (by decide)⟩

/-- `10 ^ 10` modulo `2 ^ 32` duplicates go to a slot for less, and fifty million accesses to a slot that an array of
eight does not get. -/
theorem wrapped_not_labelled : slotLabel (arrPos 1410065408) = (607876096, 1215752192) ∧ ¬ KeyInSlot dupsLen 1410065408 ∧
    arrPos 50000000 = 16 ∧ (growDups (List.replicate acsLen 0) 16).length = 16 ∧ ¬ KeyInSlot acsLen 50000000 := by
  have hwrapped : arrPos 1410065408 = 22 := by decide +kernel
  have hlabel : slotLabel 22 = (607876096, 1215752192) := by decide +kernel
  have hslot : arrPos 50000000 = 16 := by decide +kernel
  refine ⟨hwrapped ▸ hlabel, fun hright => ?_, hslot, rfl, fun hright => ?_⟩
  · have hin := hright.labelled.2
    rw [hwrapped, hlabel] at hin
    exact absurd hin (by decide)
  · have hin := hright.inside (List.replicate acsLen 0) List.length_replicate.ge
    rw [hslot] at hin
    exact absurd hin (by decide)

end Dedisbench
