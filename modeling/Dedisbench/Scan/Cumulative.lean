import Dedisbench.Scan.Print

/-!
# What reaches the cumulative file

The scan puts the count of key zero in slot zero and every other count in a slot behind it
(`foldlM_cumulStep`); the fold moves counts down (`foldTail_eq`), and the ranges print every slot but
slot zero (`sum_rangeLines`).  So the file holds all counts unless the fold reaches slot zero
(`cumulative_complete_iff`).
-/

namespace Dedisbench

open Tally ExceptRun

/-! ### Slots are in the array -/

theorem findBucket_le {n key : ℕ} (h : key < 10 ^ n) : findBucket key ≤ n := by
  induction n generalizing key with
  | zero =>
    rw [findBucket, if_pos (by simpa using h)]
  | succ n ih =>
    rw [findBucket]
    split
    next => exact Nat.zero_le _
    next => exact Nat.succ_le_succ (ih (Nat.div_lt_of_lt_mul (by rwa [Nat.mul_comm, ← Nat.pow_succ])))

theorem findBucket_pos {key : ℕ} (h : key ≠ 0) : 0 < findBucket key := by
  rw [findBucket, if_neg h]
  exact Nat.succ_pos _

theorem arrPos_bounds {key : UInt64} (h : key ≠ 0) : 1 ≤ arrPos key ∧ arrPos key ≤ 42 := by
  have hne : key.toNat ≠ 0 := fun h0 => h (UInt64.toNat_inj.mp h0)
  have hpos := findBucket_pos hne
  have hle : findBucket key.toNat ≤ 20 := findBucket_le (lt_trans key.toNat_lt (by decide))
  have hbucket : 1 ≤ (bucketPower key).1 ∧ (bucketPower key).1 ≤ 21 := by
    unfold bucketPower
    dsimp only
    split <;> dsimp only <;> omega
  unfold arrPos
  split
  next bucket power heq =>
    rw [heq] at hbucket
    dsimp only at hbucket
    split <;> omega

/-! ### Sums of slots -/

/-- The sum of some counts. -/
def total (l : List UInt64) : ℕ := (l.map UInt64.toNat).sum

theorem total_nil : total [] = 0 := rfl

theorem total_cons (d : UInt64) (l : List UInt64) : total (d :: l) = d.toNat + total l := by simp [total]

theorem total_append (l l' : List UInt64) : total (l ++ l') = total l + total l' := by simp [total]

theorem total_replicate_zero (n : ℕ) : total (List.replicate n 0) = 0 := by simp [total]

theorem toNat_add_of_lt {a b : UInt64} (h : a.toNat + b.toNat < 2 ^ 64) : (a + b).toNat = a.toNat + b.toNat := by
  rw [UInt64.toNat_add, Nat.mod_eq_of_lt h]

theorem total_modify_add {l : List UInt64} {j : ℕ} {v : UInt64} (hj : j < l.length)
    (h : total l + v.toNat < 2 ^ 64) : total (l.modify j (· + v)) = total l + v.toNat := by
  induction l generalizing j with
  | nil => cases hj
  | cons a l ih =>
    rw [total_cons] at h
    cases j with
    | zero =>
      rw [List.modify_zero_cons, total_cons, total_cons, toNat_add_of_lt (by omega)]
      omega
    | succ j =>
      rw [List.modify_succ_cons, total_cons, total_cons, ih (Nat.lt_of_succ_lt_succ hj) (by omega)]
      omega

theorem total_filter_le (recs : List (UInt64 × UInt64)) (p : UInt64 × UInt64 → Bool) :
    total ((recs.filter p).map Prod.snd) ≤ total (recs.map Prod.snd) := by
  induction recs with
  | nil => exact le_refl _
  | cons r recs ih =>
    rw [List.filter_cons]
    split
    next => simpa only [List.map_cons, total_cons] using Nat.add_le_add_left ih _
    next =>
      rw [List.map_cons, total_cons]
      exact le_trans ih (Nat.le_add_left _ _)

/-! ### The printed ranges -/

/-- The counts on some lines. -/
def printed (lines : List CumulLine) : ℕ := total (lines.map CumulLine.count)

theorem printed_append (l l' : List CumulLine) : printed (l ++ l') = printed l + printed l' := by
  rw [printed, List.map_append, total_append, printed, printed]

theorem printed_rangeLine (lo hi : ℤ) (d : UInt64) :
    printed (if d ≠ 0 then [.range lo hi d] else []) = d.toNat := by
  split
  next => simp [printed, total, CumulLine.count]
  next h => rw [not_not.mp h]; rfl

/-- **Every slot is printed** from the first one on. -/
theorem printed_rangeLines : ∀ (dups : List UInt64) (init final : ℤ),
    printed (rangeLines dups init final) = total dups
  | [], _, _ => rfl
  | [d], init, final => by rw [rangeLines, printed_rangeLine, total_cons, total_nil, Nat.add_zero]
  | d :: d' :: dups, init, final => by
    rw [rangeLines, printed_append, printed_append, printed_rangeLine, printed_rangeLine,
      printed_rangeLines dups final (intMul final 10), total_cons, total_cons, Nat.add_assoc]

theorem foldlM_printCumul (lines out : List CumulLine) :
    lines.foldlM printCumul (some out) = .ok (some (out ++ lines)) := by
  induction lines generalizing out with
  | nil => rw [List.append_nil]; rfl
  | cons line lines ih =>
    rw [foldlM_cons_eq_ok]
    exact ⟨some (out ++ [line]), rfl, by rw [ih, List.append_assoc, List.singleton_append]⟩

/-! ### The fold -/

/-- The fold stops at a slot with more than 300 blocks. -/
theorem foldTail_of_gt {i : ℕ} {dups : List UInt64} {d : UInt64} (hd : dups[i]? = some d) (h : ¬ d ≤ 300) :
    foldTail i dups = .ok dups := by
  cases i with
  | zero =>
    simp only [foldTail, hd]
    exact if_neg h
  | succ i =>
    have hlt : i + 1 < dups.length := (List.getElem?_eq_some_iff.mp hd).1
    simp only [foldTail, hd, List.getElem?_eq_getElem (Nat.lt_of_succ_lt hlt)]
    exact if_neg h

theorem foldTail_zero {y : UInt64} {zeros : List UInt64} (h : y ≤ 300) :
    foldTail 0 (y :: zeros) = .error .undefined := by
  simp only [foldTail, List.getElem?_cons_zero]
  exact if_pos h

theorem getElem?_last (pre : List UInt64) (y : UInt64) (rest : List UInt64) :
    (pre ++ y :: rest)[pre.length]? = some y := by
  rw [List.getElem?_append_right (le_refl _), Nat.sub_self, List.getElem?_cons_zero]

/-- One round of the fold: the last slot used goes into the one below. -/
theorem foldTail_concat {pre : List UInt64} {x y : UInt64} {n : ℕ} (h : y ≤ 300) :
    foldTail (pre.length + 1) (pre ++ x :: y :: List.replicate n 0) =
      foldTail pre.length (pre ++ (x + y) :: List.replicate (n + 1) 0) := by
  have hlast : (pre ++ x :: y :: List.replicate n 0)[pre.length + 1]? = some y := by
    rw [List.getElem?_append_right (Nat.le_succ _)]
    simp
  have hset : ((pre ++ x :: y :: List.replicate n 0).set pre.length (x + y)).set (pre.length + 1) 0 =
      pre ++ (x + y) :: List.replicate (n + 1) 0 := by
    simp [List.set_append_right, List.replicate_succ]
  simp only [foldTail, hlast, getElem?_last, if_pos h, hset]

/-- **What the fold does**, by the sum of the slots behind slot zero: above 300 it stops before slot zero and moves
nothing into it; otherwise it empties them all into slot zero, and goes on below it unless that is above 300. -/
theorem foldTail_eq (d0 : UInt64) (mid : List UInt64) (y : UInt64) (n : ℕ)
    (h : d0.toNat + (total mid + y.toNat) < 2 ^ 64) :
    (300 < total mid + y.toNat → ∃ rest, foldTail (d0 :: mid).length (d0 :: mid ++ y :: List.replicate n 0) =
      .ok (d0 :: rest) ∧ total rest = total mid + y.toNat) ∧
    (total mid + y.toNat ≤ 300 → foldTail (d0 :: mid).length (d0 :: mid ++ y :: List.replicate n 0) =
      if d0.toNat + (total mid + y.toNat) ≤ 300 then .error .undefined
      else .ok ((d0 + .ofNat (total mid + y.toNat)) :: List.replicate (mid.length + 1 + n) 0)) := by
  have h300 : ∀ d : UInt64, d ≤ 300 ↔ d.toNat ≤ 300 := fun d => UInt64.le_iff_toNat_le
  induction mid using List.reverseRecOn generalizing y n with
  | nil =>
    rw [total_nil, Nat.zero_add] at h ⊢
    constructor
    · intro hy
      refine ⟨y :: List.replicate n 0, foldTail_of_gt (getElem?_last _ _ _) (by rw [h300]; omega), ?_⟩
      rw [total_cons, total_replicate_zero, Nat.add_zero]
    · intro hy
      have hadd := toNat_add_of_lt h
      have hround : foldTail [d0].length ([d0] ++ y :: List.replicate n 0) =
          foldTail 0 ((d0 + y) :: List.replicate (n + 1) 0) := @foldTail_concat [] _ _ _ ((h300 y).mpr hy)
      rw [hround, UInt64.ofNat_toNat, ← hadd]
      split
      next hsum => exact foldTail_zero ((h300 _).mpr hsum)
      next hsum =>
        have hgt : ¬ d0 + y ≤ 300 := by rwa [h300]
        rw [foldTail_of_gt List.getElem?_cons_zero hgt, List.length_nil, Nat.zero_add, Nat.add_comm 1]
  | append_singleton mid x ih =>
    rw [total_append, total_cons, total_nil, Nat.add_zero] at h ⊢
    have hassoc : d0 :: (mid ++ [x]) ++ y :: List.replicate n 0 = (d0 :: mid) ++ x :: y :: List.replicate n 0 := by
      simp
    have hlength : (d0 :: (mid ++ [x])).length = (d0 :: mid).length + 1 := by simp
    rw [hassoc, hlength]
    by_cases hy : y ≤ 300
    · have hadd : (x + y).toNat = x.toNat + y.toNat := toNat_add_of_lt (by omega)
      have hih := ih (x + y) (n + 1) (by rw [hadd]; omega)
      rw [hadd, ← Nat.add_assoc] at hih
      rw [foldTail_concat hy]
      refine ⟨hih.1, fun hle => (hih.2 hle).trans ?_⟩
      rw [List.length_append, List.length_singleton, show mid.length + 1 + (n + 1) = mid.length + 1 + 1 + n by omega]
    · have hy' := mt (h300 y).mpr hy
      have hlast : ((d0 :: mid) ++ x :: y :: List.replicate n 0)[(d0 :: mid).length + 1]? = some y := by
        rw [← hassoc, ← hlength]
        exact getElem?_last _ _ _
      refine ⟨fun _ => ?_, fun hle => absurd hle (by omega)⟩
      refine ⟨mid ++ x :: y :: List.replicate n 0, foldTail_of_gt hlast hy, ?_⟩
      rw [total_append, total_cons, total_cons, total_replicate_zero]
      omega

/-! ### The scan -/

/-- What a round of the scan does to a state with enough slots and a stream. -/
def cumulNext (s : CumulState) (data : UInt64 × UInt64) : CumulState :=
  if data.1 = 0 then
    { s with dups := s.dups.modify 0 fun _ => data.2, fpcumul := s.fpcumul.map fun out => out ++ [.zero data.2] }
  else
    { s with dups := s.dups.modify (arrPos data.1) (· + data.2), max := Nat.max s.max (arrPos data.1) }

/-- A key other than zero needs no stream. -/
theorem cumulStep_of_ne {s : CumulState} (hlen : s.dups.length = dupsLen) {data : UInt64 × UInt64} (h : data.1 ≠ 0) :
    cumulStep s data = .ok (cumulNext s data) := by
  have hpos := arrPos_bounds h
  have hlt : arrPos data.1 < s.dups.length := by
    rw [hlen, dupsLen]
    omega
  have hgrow : growDups s.dups (arrPos data.1) = s.dups := if_neg (by omega)
  have hmax : (if s.max < arrPos data.1 then arrPos data.1 else s.max) = Nat.max s.max (arrPos data.1) := by
    split <;> simp only [Nat.max_def] <;> split <;> omega
  rw [cumulStep, if_neg h, cumulNext, if_neg h]
  simp only [hgrow, List.getElem?_eq_getElem hlt, hmax, List.modify_eq_set_getElem?, Option.map_eq_map,
    Option.map_some, Option.getD_some]

theorem cumulStep_eq {s : CumulState} {out : List CumulLine} (hlen : s.dups.length = dupsLen)
    (hout : s.fpcumul = some out) (data : UInt64 × UInt64) : cumulStep s data = .ok (cumulNext s data) := by
  by_cases h : data.1 = 0
  · have hset : s.dups.set 0 data.2 = s.dups.modify 0 fun _ => data.2 := by
      cases s.dups <;> rfl
    rw [cumulStep, if_pos h, cumulNext, if_pos h, hout, printCumul, bind_ok, if_neg (by rw [hlen]; decide), hset]
    rfl
  · exact cumulStep_of_ne hlen h

theorem length_cumulNext (s : CumulState) (data : UInt64 × UInt64) :
    (cumulNext s data).dups.length = s.dups.length := by
  unfold cumulNext
  split <;> exact List.length_modify _ _ _

theorem foldlM_cumulStep (recs : List (UInt64 × UInt64)) {s : CumulState} {out : List CumulLine}
    (hlen : s.dups.length = dupsLen) (hout : s.fpcumul = some out) :
    recs.foldlM cumulStep s = .ok (recs.foldl cumulNext s) := by
  induction recs generalizing s out with
  | nil => rfl
  | cons data recs ih =>
    rw [foldlM_cons_eq_ok]
    refine ⟨cumulNext s data, cumulStep_eq hlen hout data, ?_⟩
    rw [List.foldl_cons]
    by_cases hzero : data.1 = 0
    · have hout' : (cumulNext s data).fpcumul = some (out ++ [.zero data.2]) := by
        rw [cumulNext, if_pos hzero, hout]
        rfl
      exact ih ((length_cumulNext s data).trans hlen) hout'
    · have hout' : (cumulNext s data).fpcumul = some out := by
        rw [cumulNext, if_neg hzero, hout]
      exact ih ((length_cumulNext s data).trans hlen) hout'

/-- Two records with different keys can come in either order. -/
theorem cumulNext_comm {x y : UInt64 × UInt64} (h : x.1 = 0 → y.1 = 0 → x = y) (s : CumulState) :
    cumulNext (cumulNext s x) y = cumulNext (cumulNext s y) x := by
  have hne : ∀ k : UInt64, k ≠ 0 → 0 ≠ arrPos k := fun k hk => by
    have := arrPos_bounds hk
    omega
  unfold cumulNext
  by_cases hx : x.1 = 0
  · by_cases hy : y.1 = 0
    · rw [h hx hy]
    · simp only [if_pos hx, if_neg hy, List.modify_modify_ne _ _ _ (hne _ hy)]
  · by_cases hy : y.1 = 0
    · simp only [if_neg hx, if_pos hy, List.modify_modify_ne _ _ _ (hne _ hx)]
    · simp only [if_neg hx, if_neg hy, Nat.max_assoc, Nat.max_comm (arrPos x.1)]
      rcases eq_or_ne (arrPos x.1) (arrPos y.1) with heq | hneq
      · simp only [heq, List.modify_modify_eq]
        congr 2
        funext d
        simp only [Function.comp_apply, UInt64.add_assoc, UInt64.add_comm x.2]
      · simp only [List.modify_modify_ne _ _ _ hneq]

/-- The state before the scan. -/
def CumulState.init : CumulState := ⟨List.replicate dupsLen 0, 0, some []⟩

/-- What the scan has gathered. -/
structure Gathered (recs : List (UInt64 × UInt64)) (s : CumulState) : Prop where
  length : s.dups.length = dupsLen
  max_lt : s.max < dupsLen
  zeros : ∀ j, s.max < j → j < dupsLen → s.dups[j]? = some 0
  zero : s.dups[0]? = some (((recs.filter fun r => r.1 = 0).map Prod.snd).getLastD 0)
  rest : total (s.dups.drop 1) = total ((recs.filter fun r => r.1 ≠ 0).map Prod.snd)
  out : s.fpcumul = some ((recs.filter fun r => r.1 = 0).map fun r => .zero r.2)

theorem Gathered.init : Gathered [] .init where
  length := List.length_replicate
  max_lt := by decide
  zeros j _ hj := by rw [CumulState.init, List.getElem?_replicate, if_pos hj]
  zero := rfl
  rest := rfl
  out := rfl

theorem Gathered.next {recs : List (UInt64 × UInt64)} {s : CumulState} (h : Gathered recs s)
    (data : UInt64 × UInt64) (htotal : total (recs.map Prod.snd) + data.2.toNat < 2 ^ 64) :
    Gathered (recs ++ [data]) (cumulNext s data) := by
  have hlen : (cumulNext s data).dups.length = dupsLen := (length_cumulNext s data).trans h.length
  by_cases hkey : data.1 = 0
  · have hfilter : (recs ++ [data]).filter (fun r => r.1 = 0) = recs.filter (fun r => r.1 = 0) ++ [data] := by
      simp [List.filter_append, hkey]
    have hothers : (recs ++ [data]).filter (fun r => r.1 ≠ 0) = recs.filter fun r => r.1 ≠ 0 := by
      simp [List.filter_append, hkey]
    rw [cumulNext, if_pos hkey] at hlen ⊢
    refine ⟨hlen, h.max_lt, ?_, ?_, ?_, ?_⟩
    · intro j hj hj'
      rw [List.getElem?_modify_ne _ _ (by omega)]
      exact h.zeros j hj hj'
    · simp [hfilter, h.zero]
    · rw [hothers, List.drop_modify_of_lt _ _ _ _ Nat.one_pos]
      exact h.rest
    · rw [hfilter, List.map_append, h.out]
      rfl
  · have hfilter : (recs ++ [data]).filter (fun r => r.1 = 0) = recs.filter fun r => r.1 = 0 := by
      simp [List.filter_append, hkey]
    have hothers : (recs ++ [data]).filter (fun r => r.1 ≠ 0) = recs.filter (fun r => r.1 ≠ 0) ++ [data] := by
      simp [List.filter_append, hkey]
    have hpos := arrPos_bounds hkey
    rw [cumulNext, if_neg hkey] at hlen ⊢
    refine ⟨hlen, ?_, ?_, ?_, ?_, ?_⟩
    · have := h.max_lt
      rw [dupsLen] at this ⊢
      exact Nat.max_lt.mpr ⟨this, by omega⟩
    · intro j hj hj'
      have hmax := Nat.max_lt.mp hj
      rw [List.getElem?_modify_ne _ _ hmax.2.ne]
      exact h.zeros j hmax.1 hj'
    · rw [List.getElem?_modify_ne _ _ (by omega), hfilter]
      exact h.zero
    · have hle := total_filter_le recs fun r => r.1 ≠ 0
      have hdrop : (s.dups.modify (arrPos data.1) (· + data.2)).drop 1 =
          (s.dups.drop 1).modify (arrPos data.1 - 1) (· + data.2) := by
        rw [List.drop_modify_of_ge _ _ _ _ hpos.1]
      rw [hdrop, total_modify_add _ (by rw [h.rest]; omega), h.rest, hothers, List.map_append, total_append,
        List.map_singleton, total_cons, total_nil, Nat.add_zero]
      rw [List.length_drop, h.length, dupsLen]
      omega
    · rw [hfilter]
      exact h.out

theorem gathered (recs : List (UInt64 × UInt64)) (h : total (recs.map Prod.snd) < 2 ^ 64) :
    Gathered recs (recs.foldl cumulNext .init) := by
  induction recs using List.reverseRecOn with
  | nil => exact Gathered.init
  | append_singleton recs data ih =>
    rw [List.map_append, total_append, List.map_singleton, total_cons, total_nil, Nat.add_zero] at h
    rw [List.foldl_concat]
    exact (ih (by omega)).next data h

/-- Behind the last slot that was filled there are zeros only. -/
theorem Gathered.drop_eq {recs : List (UInt64 × UInt64)} {s : CumulState} (h : Gathered recs s) {m : ℕ}
    (hm : s.max ≤ m) : s.dups.drop (m + 1) = List.replicate (dupsLen - (m + 1)) 0 := by
  rw [List.eq_replicate_iff, List.length_drop, h.length]
  refine ⟨rfl, fun b hb => ?_⟩
  obtain ⟨j, hj⟩ := List.mem_iff_getElem?.mp hb
  rw [List.getElem?_drop] at hj
  have hlt := (List.getElem?_eq_some_iff.mp hj).1
  rw [h.length] at hlt
  exact Option.some.inj (hj.symm.trans (h.zeros (m + 1 + j) (by omega) hlt))

/-- The fold after the scan, by the sum of the slots behind slot zero. -/
theorem Gathered.foldTail {recs : List (UInt64 × UInt64)} {s : CumulState} (h : Gathered recs s) {d0 : UInt64}
    (hd0 : s.dups[0]? = some d0) (hlt : d0.toNat + total (s.dups.drop 1) < 2 ^ 64) :
    (300 < total (s.dups.drop 1) → ∃ rest, foldTail s.max s.dups = .ok (d0 :: rest) ∧
      total rest = total (s.dups.drop 1)) ∧
    (total (s.dups.drop 1) ≤ 300 → foldTail s.max s.dups =
      if d0.toNat + total (s.dups.drop 1) ≤ 300 then .error .undefined
      else .ok ((d0 + .ofNat (total (s.dups.drop 1))) :: List.replicate (dupsLen - 1) 0)) := by
  have hdrop := h.drop_eq (m := s.max) le_rfl
  obtain ⟨dups, max, out⟩ := s
  obtain ⟨hlength, hmax, -, -, -, -⟩ := h
  dsimp only at hlength hmax hdrop hd0 hlt ⊢
  rcases dups with _ | ⟨d, r⟩
  · cases hd0
  rw [List.getElem?_cons_zero, Option.some.injEq] at hd0
  subst hd0
  rw [List.drop_succ_cons] at hdrop
  rw [List.drop_succ_cons, List.drop_zero] at hlt ⊢
  cases max with
  | zero =>
    -- no key but zero: there is nothing to fold into slot zero
    have hzero : r = List.replicate (dupsLen - 1) 0 := by rwa [List.drop_zero] at hdrop
    have htotal : total r = 0 := by rw [hzero, total_replicate_zero]
    have h300 : d ≤ 300 ↔ d.toNat ≤ 300 := UInt64.le_iff_toNat_le
    rw [htotal]
    refine ⟨fun h => absurd h (by decide), fun _ => ?_⟩
    split
    next hle => exact foldTail_zero (h300.mpr hle)
    next hgt =>
      rw [foldTail_of_gt List.getElem?_cons_zero (mt h300.mp hgt), ← hzero]
      simp
  | succ m =>
    rw [List.length_cons] at hlength
    have hm : m < r.length := by omega
    have hsplit : r = r.take m ++ r[m] :: List.replicate (dupsLen - (m + 1 + 1)) 0 := by
      rw [← hdrop, ← List.drop_eq_getElem_cons hm, List.take_append_drop]
    have htotal : total r = total (r.take m) + r[m].toNat := by
      conv_lhs => rw [hsplit]
      rw [total_append, total_cons, total_replicate_zero, Nat.add_zero]
    have hlen : (d :: r.take m).length = m + 1 := by
      rw [List.length_cons, List.length_take, Nat.min_eq_left hm.le]
    have hfold := foldTail_eq d (r.take m) r[m] (dupsLen - (m + 1 + 1)) (by omega)
    rw [hlen, List.cons_append, ← hsplit, ← htotal] at hfold
    refine ⟨hfold.1, fun hle => (hfold.2 hle).trans ?_⟩
    have hslots : (r.take m).length + 1 + (dupsLen - (m + 1 + 1)) = dupsLen - 1 := by
      rw [List.length_take, Nat.min_eq_left hm.le]
      omega
    rw [hslots]

/-! ### The file -/

/-- The number of blocks of a distribution, and of those with duplicates. -/
def blocksOf (db : PrintDb) : ℕ := ∑ k ∈ db.keys, (valueAt db k).toNat

def blocksBehind (db : PrintDb) : ℕ := ∑ k ∈ db.keys.filter (· ≠ 0), (valueAt db k).toNat

theorem blocksOf_eq (db : PrintDb) : blocksOf db = (valueAt db 0).toNat + blocksBehind db := by
  have hsplit := Finset.sum_filter_add_sum_filter_not db.keys (· = 0) fun k => (valueAt db k).toNat
  have hzero : ∑ k ∈ db.keys.filter (· = 0), (valueAt db k).toNat = (valueAt db 0).toNat := by
    by_cases h0 : 0 ∈ db.keys
    · rw [Finset.filter_eq', if_pos h0, Finset.sum_singleton]
    · rw [Finset.filter_eq', if_neg h0, Finset.sum_empty, valueAt_of_notMem (mt Finmap.mem_keys.mpr h0)]
      rfl
  rw [blocksOf, ← hsplit, hzero]
  rfl

section File

variable {db : PrintDb} {recs : List (UInt64 × UInt64)}

theorem total_records (h : Visits db recs) : total (recs.map Prod.snd) = blocksOf db := by
  have hsum := h.sum_map (fun _ => True) UInt64.toNat
  simp only [decide_true, List.filter_true, Finset.filter_true] at hsum
  rw [total, List.map_map, blocksOf]
  exact hsum

theorem total_behind (h : Visits db recs) :
    total ((recs.filter fun r => r.1 ≠ 0).map Prod.snd) = blocksBehind db := by
  rw [total, List.map_map, blocksBehind]
  exact h.sum_map (fun k => k ≠ 0) UInt64.toNat

/-- The line for key zero. -/
def zeroLines (db : PrintDb) : List CumulLine := if 0 ∈ db then [.zero (valueAt db 0)] else []

theorem printed_zeroLines (db : PrintDb) : printed (zeroLines db) = (valueAt db 0).toNat := by
  unfold zeroLines
  split
  next => simp [printed, total, CumulLine.count]
  next h => rw [valueAt_of_notMem h]; rfl

/-- **The cumulative file of a distribution**, by the number of blocks with duplicates. -/
theorem printCumulative_cases (h : Visits db recs) (hlt : blocksOf db < 2 ^ 64) :
    (300 < blocksBehind db → ∃ out, printCumulative recs (some []) = .ok (some out) ∧ printed out = blocksOf db) ∧
    (blocksBehind db ≤ 300 → printCumulative recs (some []) =
      if blocksOf db ≤ 300 then .error .undefined else .ok (some (zeroLines db))) := by
  have hg := gathered recs (by rwa [total_records h])
  set s := recs.foldl cumulNext .init
  have hzero : s.dups[0]? = some (valueAt db 0) := by
    rw [hg.zero]
    by_cases h0 : 0 ∈ db
    · rw [h.filter_of_mem h0]
      rfl
    · rw [h.filter_of_notMem h0, valueAt_of_notMem h0]
      rfl
  have hout : s.fpcumul = some (zeroLines db) := by
    rw [hg.out, zeroLines]
    split
    next h0 => rw [h.filter_of_mem h0]; rfl
    next h0 => rw [h.filter_of_notMem h0]; rfl
  have hrest : total (s.dups.drop 1) = blocksBehind db := hg.rest.trans (total_behind h)
  have hrun : ∀ dups, foldTail s.max s.dups = .ok dups → printCumulative recs (some []) =
      .ok (some (zeroLines db ++ rangeLines (dups.drop 1) 1 10)) := by
    intro dups hdups
    rw [printCumulative, ← CumulState.init, foldlM_cumulStep recs List.length_replicate rfl, bind_ok,
      hdups, bind_ok, hout, foldlM_printCumul]
  have hfold := hg.foldTail hzero (by rwa [hrest, ← blocksOf_eq])
  rw [hrest, ← blocksOf_eq] at hfold
  constructor
  · intro hgt
    obtain ⟨rest, hrest', htotal⟩ := hfold.1 hgt
    refine ⟨_, hrun _ hrest', ?_⟩
    rw [printed_append, printed_zeroLines, List.drop_succ_cons, List.drop_zero, printed_rangeLines, htotal,
      ← blocksOf_eq]
  · intro hle
    have hfold := hfold.2 hle
    split
    next hsmall =>
      rw [if_pos hsmall] at hfold
      rw [printCumulative, ← CumulState.init, foldlM_cumulStep recs List.length_replicate rfl, bind_ok,
        hfold, bind_error]
    next hlarge =>
      rw [if_neg hlarge] at hfold
      rw [hrun _ hfold]
      simp [rangeLines, dupsLen, List.replicate_succ]

/-- The order of the records does not matter. -/
theorem printCumulative_perm {recs' : List (UInt64 × UInt64)} (h : Visits db recs) (h' : Visits db recs') :
    printCumulative recs (some []) = printCumulative recs' (some []) := by
  have hfold : recs.foldl cumulNext .init = recs'.foldl cumulNext .init := by
    apply (h.perm h').foldl_eq'
    intro x hx y hy s
    apply cumulNext_comm
    intro hx0 hy0
    rw [← Prod.eta x, ← Prod.eta y, h.snd_eq hx, h.snd_eq hy, hx0, hy0]
  rw [printCumulative, printCumulative, ← CumulState.init,
    foldlM_cumulStep recs List.length_replicate rfl,
    foldlM_cumulStep recs' List.length_replicate rfl, hfold]

end File

/-- The cumulative file of a distribution holds all its blocks, and is the same for every order of the cursor. -/
def CumulativeComplete (db : PrintDb) : Prop :=
  (∀ recs, Visits db recs →
    ∃ dist out, printElementsPrint recs (some []) = .ok (dist, some out) ∧ printed out = blocksOf db) ∧
  ∀ recs recs', Visits db recs → Visits db recs' →
    (printElementsPrint recs (some [])).map Prod.snd = (printElementsPrint recs' (some [])).map Prod.snd

theorem printElementsPrint_snd (recs : List (UInt64 × UInt64)) (fpcumul : Option (List CumulLine)) :
    (printElementsPrint recs fpcumul).map Prod.snd = printCumulative recs fpcumul := by
  rw [printElementsPrint]
  cases printCumulative recs fpcumul <;> rfl

theorem printElementsPrint_eq_ok {recs : List (UInt64 × UInt64)} {dist : List Char} {out : List CumulLine} :
    printElementsPrint recs (some []) = .ok (dist, some out) ↔
      printCumulative recs (some []) = .ok (some out) ∧ dist = distText recs := by
  rw [printElementsPrint, bind_eq_ok]
  constructor
  · rintro ⟨o, ho, heq⟩
    rw [Except.ok.injEq, Prod.mk.injEq] at heq
    obtain ⟨rfl, rfl⟩ := heq
    exact ⟨ho, rfl⟩
  · rintro ⟨ho, rfl⟩
    exact ⟨some out, ho, rfl⟩

/-- A distribution whose blocks with duplicates are folded into slot zero is not printed whole. -/
theorem not_cumulativeComplete {db : PrintDb} (hlt : blocksOf db < 2 ^ 64) (hle : blocksBehind db ≤ 300)
    (h : blocksBehind db ≠ 0 ∨ (valueAt db 0).toNat ≤ 300) : ¬ CumulativeComplete db := by
  rintro ⟨hall, -⟩
  obtain ⟨recs, hrecs⟩ := exists_visits db
  obtain ⟨dist, out, hrun, hprinted⟩ := hall recs hrecs
  have hcases := (printCumulative_cases hrecs hlt).2 hle
  rw [(printElementsPrint_eq_ok.mp hrun).1] at hcases
  have hsum := blocksOf_eq db
  split at hcases
  next => cases hcases
  next hlarge =>
    rw [Except.ok.injEq, Option.some.injEq] at hcases
    rw [hcases, printed_zeroLines] at hprinted
    omega

/-- **Every block reaches the cumulative file exactly when more than 300 blocks have duplicates, or none has and more
than 300 have none.** -/
theorem cumulative_complete_iff (db : PrintDb) (htotal : blocksOf db < 2 ^ 63) :
    CumulativeComplete db ↔ 300 < blocksBehind db ∨ blocksBehind db = 0 ∧ 300 < (valueAt db 0).toNat := by
  have hlt : blocksOf db < 2 ^ 64 := lt_trans htotal (by decide)
  constructor
  · intro hcomplete
    by_contra hneg
    rw [not_or, not_and_or, not_lt, not_lt] at hneg
    exact not_cumulativeComplete hlt hneg.1 hneg.2 hcomplete
  · intro hcond
    refine ⟨fun recs hrecs => ?_, fun recs recs' h h' => ?_⟩
    · have hcases := printCumulative_cases hrecs hlt
      rcases hcond with hgt | ⟨hzero, hgt⟩
      · obtain ⟨out, hout, hprinted⟩ := hcases.1 hgt
        exact ⟨distText recs, out, printElementsPrint_eq_ok.mpr ⟨hout, rfl⟩, hprinted⟩
      · have hsum := blocksOf_eq db
        have hout := hcases.2 (by omega)
        rw [if_neg (by omega)] at hout
        refine ⟨distText recs, zeroLines db, printElementsPrint_eq_ok.mpr ⟨hout, rfl⟩, ?_⟩
        rw [printed_zeroLines]
        omega
    · rw [printElementsPrint_snd, printElementsPrint_snd]
      exact printCumulative_perm h h'

/-- Five blocks without duplicates and 301 with one. -/
theorem largeTail_complete : CumulativeComplete ((∅ : PrintDb).insert 0 5 |>.insert 1 301) :=
  (cumulative_complete_iff _ (by decide)).mpr (.inl (by decide))

/-- Of 400 blocks without duplicates and 10 with one, the 10 are folded away. -/
theorem smallTail_lost : ¬ CumulativeComplete ((∅ : PrintDb).insert 0 400 |>.insert 1 10) :=
  not_cumulativeComplete (by decide) (by decide) (.inl (by decide))

end Dedisbench
