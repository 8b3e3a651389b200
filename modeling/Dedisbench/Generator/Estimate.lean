import Dedisbench.Generator.Ids

/-!
# The estimate of the compression between blocks

`get_media_inter` looks up the compression of random ids, pairs them, and returns the means of a lower and an upper
bound over the pairs.  A lookup comes back for a line with ten shares, or with fewer if they reach the position of the
id (`Linha.Answers`); the means are in order and are percentages (`MediaInv`).  What can go wrong is the number of
pairs: it is `0` below two rounds (`estimateOk_iff`).
-/

namespace Dedisbench

open ExceptRun Spans

/-! ### Every id has a line -/

/-- Between a value below and a value not below there is a step that crosses. -/
theorem exists_crossing {f : ℕ → ℤ} {x : ℤ} {n : ℕ} (h0 : f 0 < x) (hn : x ≤ f n) :
    ∃ i < n, f i < x ∧ x ≤ f (i + 1) := by
  induction n with
  | zero => omega
  | succ n ih =>
    rcases lt_or_ge (f n) x with hlt | hge
    · exact ⟨n, Nat.lt_succ_self n, hlt, hn⟩
    · obtain ⟨i, hi, hcross⟩ := ih hge
      exact ⟨i, Nat.lt_succ_of_lt hi, hcross⟩

theorem toInt32_pos_iff {n : ℕ} (h : n < 2 ^ 32) : 1 ≤ toInt32 n ↔ 1 ≤ n ∧ n < 2 ^ 31 := by
  unfold toInt32
  split <;> omega

/-- **Every id up to the total is taken to belong to some line**, even if the bases have wrapped. -/
theorem exists_hasId {F : Type} {ls : List (Linha F)} (h : LinesOk ls) {total id : ℕ}
    (htotal : total = u32 (ls.map Linha.nrBlocks).sum) (hint : 1 ≤ toInt32 total) (hid : 1 ≤ id ∧ id ≤ total) :
    ∃ l ∈ ls, l.hasId (id : ℤ) = true := by
  have hlt : total < 2 ^ 31 := ((toInt32_pos_iff (htotal ▸ u32_lt _)).mp hint).2
  obtain ⟨i, hi, hlow, hhigh⟩ := exists_crossing (f := fun i => toInt32 (start (ls.map Linha.nrBlocks) i))
    (x := (id : ℤ)) (n := ls.length) (by simp only [start_zero, toInt32]; omega) (by
      have hsum : start (ls.map Linha.nrBlocks) ls.length = (ls.map Linha.nrBlocks).sum := by
        rw [start, List.take_of_length_le (by simp)]
      have : toInt32 (ls.map Linha.nrBlocks).sum = total := by
        rw [← toInt32_of_lt hlt, htotal]
        unfold toInt32 u32
        rw [Nat.mod_mod]
      simp only [hsum, this]
      omega)
  obtain ⟨l, hl⟩ : ∃ l, ls[i]? = some l := ⟨ls[i], List.getElem?_eq_getElem hi⟩
  have hk : (ls.map Linha.nrBlocks)[i]? = some l.nrBlocks := by rw [List.getElem?_map, hl, Option.map_some]
  have hbase := h.base hl
  rw [start_succ hk] at hhigh
  refine ⟨l, List.mem_of_getElem? hl, ?_⟩
  rw [Linha.hasId, Bool.and_eq_true, decide_eq_true_eq, decide_eq_true_eq, hbase]
  generalize start (ls.map Linha.nrBlocks) i = base at hlow hhigh
  generalize l.nrBlocks = k at hhigh
  constructor
  · unfold toInt32 at hlow
    unfold toInt32 u32
    split at hlow <;> split <;> omega
  · unfold toInt32 at hhigh
    unfold toInt32 u32
    split at hhigh <;> split <;> omega

/-! ### Which lookups come back -/

section Lookup

variable {F : Type} [Arith F] {ls : List (Linha F)} {id : ℤ}

/-- The line that the search takes to be the one of an id has a share for it. -/
def AnswersId (ls : List (Linha F)) (id : ℤ) : Prop :=
  ∃ l, (ls.find? fun l => l.hasId id) = some l ∧ l.Answers (ofInt32 (id - l.nrBase))

theorem compressionById_ok (h : AnswersId ls id) : ∃ c : ℕ, c ≤ 9 ∧ compressionById ls id = .ok ((c : ℤ) * 10) := by
  obtain ⟨l, hl, hanswers⟩ := h
  obtain ⟨c, hc⟩ := giveMyCompression_ok_iff.mpr hanswers
  refine ⟨c, giveMyCompression_le hc, ?_⟩
  simp only [compressionById_eq_find, hl, hc, bind_ok]

theorem answersId_of_ok {x : ℤ} (h : compressionById ls id = .ok x) (hid : ∃ l ∈ ls, l.hasId id = true) :
    AnswersId ls id := by
  rw [compressionById_eq_find] at h
  obtain ⟨l, hl⟩ : ∃ l, (ls.find? fun l => l.hasId id) = some l := by
    rw [← Option.isSome_iff_exists, List.find?_isSome]
    exact hid
  simp only [hl, bind_eq_ok] at h
  obtain ⟨c, hc, -⟩ := h
  exact ⟨l, hl, giveMyCompression_ok_iff.mp ⟨c, hc⟩⟩

end Lookup

/-! ### The loop -/

/-- The variables of the loop after `n` rounds: half as many pairs, a block that waits for its partner if `n` is odd, and
sums of percentages. -/
structure MediaInv (n : ℕ) (s : MediaState) : Prop where
  pairs : s.nrPairs = n / 2
  even : n % 2 = 0 → s.previousCompression = -1
  odd : n % 2 = 1 → 0 ≤ s.previousCompression ∧ s.previousCompression ≤ 90
  minimum : 0 ≤ s.minimum ∧ s.minimum ≤ s.maximum
  maximum : s.maximum ≤ 100 * s.nrPairs

section Loop

variable {g : Generator} {s s' : MediaState} {n raw c : ℕ}

/-- One round, for an id with a compression. -/
theorem mediaStep_of_current (hint : 1 ≤ toInt32 g.totalUniqueBlocks) (htotal : 1 ≤ g.totalUniqueBlocks)
    (hn : n < 42949672) (hs : MediaInv n s) (hc : c ≤ 9)
    (hcurrent : g.getBlockCompressionById (1 + raw % g.totalUniqueBlocks : ℕ) = .ok ((c : ℤ) * 10)) :
    ∃ s', mediaStep g s raw = .ok s' ∧ MediaInv (n + 1) s' := by
  obtain ⟨hpairs, heven, hodd, ⟨hmin, hminmax⟩, hmax⟩ := hs
  have hdraw : uniformInt 1 g.totalUniqueBlocks raw = .ok (1 + raw % g.totalUniqueBlocks) := by
    rw [uniformInt, if_pos htotal, Nat.sub_add_cancel htotal]
  simp only [mediaStep, if_neg (not_lt.mpr hint), hdraw, bind_ok, hcurrent]
  rcases Nat.mod_two_eq_zero_or_one n with hpar | hpar
  · -- the first block of a pair
    rw [if_pos (heven hpar)]
    exact ⟨_, rfl, by dsimp only; omega, by omega, fun _ => by dsimp only; omega, ⟨hmin, hminmax⟩, hmax⟩
  · obtain ⟨hlow, hhigh⟩ := hodd hpar
    generalize hp : s.previousCompression = p at hlow hhigh
    rw [if_neg (by omega)]
    -- the two bounds of the pair
    have hlo : ((c : ℤ) * 10 + p).tdiv 2 = ((c : ℤ) * 10 + p) / 2 := Int.tdiv_eq_ediv_of_nonneg (by omega)
    have hhi : ((c : ℤ) * 10 + p + min (100 - (c : ℤ) * 10) (100 - p)).tdiv 2 =
        ((c : ℤ) * 10 + p + min (100 - (c : ℤ) * 10) (100 - p)) / 2 := Int.tdiv_eq_ediv_of_nonneg (by omega)
    rw [hlo, hhi]
    generalize hlo' : ((c : ℤ) * 10 + p) / 2 = lo
    generalize hhi' : ((c : ℤ) * 10 + p + min (100 - (c : ℤ) * 10) (100 - p)) / 2 = hi
    have hpair : 0 ≤ lo ∧ lo ≤ hi ∧ hi ≤ 100 := by omega
    rw [cInt_eq_ok.mpr ⟨by omega, rfl⟩, bind_ok, cInt_eq_ok.mpr ⟨by omega, rfl⟩, bind_ok]
    exact ⟨_, rfl, by dsimp only; omega, fun _ => rfl, by omega, by dsimp only; omega, by dsimp only; omega⟩

/-- Without an id no round goes through, and there is no pair. -/
theorem nrPairs_of_noIds {rounds : ℕ} {draw : ℕ → ℕ} (hint : ¬ 1 ≤ toInt32 g.totalUniqueBlocks)
    (hs : (List.range rounds).foldlM (fun s i => mediaStep g s (draw i)) ⟨-1, 0, 0, 0⟩ = .ok s) : s.nrPairs = 0 := by
  cases rounds with
  | zero =>
    cases hs
    rfl
  | succ rounds =>
    rw [List.range_succ_eq_map, foldlM_cons_eq_ok] at hs
    obtain ⟨t, ht, -⟩ := hs
    rw [mediaStep, if_pos (not_le.mp hint)] at ht
    cases ht

variable (hlines : LinesOk g.linhas) (htotal : g.totalUniqueBlocks = u32 g.blockCounts.sum)

include hlines htotal

/-- A round goes through exactly if the line of its id has a share for it. -/
theorem mediaStep_ok_iff (hint : 1 ≤ toInt32 g.totalUniqueBlocks) (hn : n < 42949672) (hs : MediaInv n s) :
    ((∃ s', mediaStep g s raw = .ok s') ↔ AnswersId g.linhas (1 + raw % g.totalUniqueBlocks : ℕ)) ∧
      ∀ s', mediaStep g s raw = .ok s' → MediaInv (n + 1) s' := by
  have hpos : 1 ≤ g.totalUniqueBlocks := ((toInt32_pos_iff (htotal ▸ u32_lt _)).mp hint).1
  have hmod : raw % g.totalUniqueBlocks < g.totalUniqueBlocks := Nat.mod_lt _ hpos
  have hback : ∀ s', mediaStep g s raw = .ok s' → AnswersId g.linhas (1 + raw % g.totalUniqueBlocks : ℕ) := by
    intro s' h
    simp only [mediaStep, if_neg (not_lt.mpr hint), bind_eq_ok] at h
    obtain ⟨id, hid, current, hcurrent, -⟩ := h
    rw [uniformInt, if_pos hpos, Nat.sub_add_cancel hpos, Except.ok.injEq] at hid
    subst hid
    exact answersId_of_ok hcurrent (exists_hasId hlines htotal hint ⟨by omega, by omega⟩)
  have hforth : AnswersId g.linhas (1 + raw % g.totalUniqueBlocks : ℕ) →
      ∃ s', mediaStep g s raw = .ok s' ∧ MediaInv (n + 1) s' := by
    intro h
    obtain ⟨c, hc, hcurrent⟩ := compressionById_ok h
    exact mediaStep_of_current hint hpos hn hs hc hcurrent
  refine ⟨⟨fun h => h.elim hback, fun h => ?_⟩, fun s' h => ?_⟩
  · obtain ⟨s', h, -⟩ := hforth h
    exact ⟨s', h⟩
  · obtain ⟨t, ht, hinv⟩ := hforth (hback s' h)
    rw [h, Except.ok.injEq] at ht
    rwa [ht]

/-- **When there is an estimate**: from two rounds on, if the ids are `int`s and the line of each one drawn has a share
for it. -/
theorem getMediaInter_ok_iff {percentage : ℕ} (hpct : 1 ≤ percentage ∧ percentage ≤ 99) (raw : ℕ → ℕ) :
    ((∃ x, getMediaInter g percentage raw = .ok x) ↔
      200 ≤ u32 (g.totalUniqueBlocks * percentage) ∧ g.totalUniqueBlocks < 2 ^ 31 ∧
        ∀ i < u32 (g.totalUniqueBlocks * percentage) / 100, AnswersId g.linhas (1 + raw i % g.totalUniqueBlocks : ℕ)) ∧
      ∀ lo hi, getMediaInter g percentage raw = .ok (lo, hi) → 0 ≤ lo ∧ lo ≤ hi ∧ hi ≤ 100 := by
  have hlt : g.totalUniqueBlocks < 2 ^ 32 := htotal ▸ u32_lt _
  have hprod : u32 (g.totalUniqueBlocks * percentage) < 2 ^ 32 := u32_lt _
  have hwrap : u32 (g.totalUniqueBlocks * percentage) ≤ g.totalUniqueBlocks * percentage := Nat.mod_le _ _
  rw [getMediaInter, if_pos ⟨hpct.1, by omega⟩]
  generalize u32 (g.totalUniqueBlocks * percentage) = product at hprod hwrap
  simp only [bind_eq_ok]
  by_cases hint : 1 ≤ toInt32 g.totalUniqueBlocks
  · obtain ⟨hpos, hlt31⟩ := (toInt32_pos_iff hlt).mp hint
    have hround : ∀ i < product / 100, ∀ s, MediaInv i s →
        ((∃ s', mediaStep g s (raw i) = .ok s') ↔ AnswersId g.linhas (1 + raw i % g.totalUniqueBlocks : ℕ)) ∧
          ∀ s', mediaStep g s (raw i) = .ok s' → MediaInv (i + 1) s' :=
      fun i hi s hs => mediaStep_ok_iff hlines htotal hint (by omega) hs
    obtain ⟨hiff, hinv⟩ := foldlM_range_ok_iff (f := fun s i => mediaStep g s (raw i)) (P := MediaInv)
      (fun i hi s hs => (hround i hi s hs).1) (fun i hi s s' hs h => (hround i hi s hs).2 s' h)
      (s := ⟨-1, 0, 0, 0⟩) ⟨rfl, fun _ => rfl, fun h => absurd h (by decide), ⟨le_rfl, le_rfl⟩, le_rfl⟩
    refine ⟨⟨?_, ?_⟩, ?_⟩
    · rintro ⟨x, s, hs, hx⟩
      have hpairs := (hinv s hs).pairs
      split at hx
      · cases hx
      · exact ⟨by omega, hlt31, hiff.mp ⟨s, hs⟩⟩
    · rintro ⟨h200, -, hanswers⟩
      obtain ⟨s, hs⟩ := hiff.mpr hanswers
      have hpairs := (hinv s hs).pairs
      exact ⟨_, s, hs, if_neg (by omega)⟩
    · rintro lo hi ⟨s, hs, hx⟩
      obtain ⟨-, -, -, ⟨hmin, hminmax⟩, hmax⟩ := hinv s hs
      split at hx
      next => cases hx
      next hpairs =>
        obtain ⟨rfl, rfl⟩ := Prod.mk.inj (Except.ok.inj hx)
        have hpos : (0 : ℤ) < s.nrPairs := by omega
        rw [Int.tdiv_eq_ediv_of_nonneg hmin, Int.tdiv_eq_ediv_of_nonneg (hmin.trans hminmax)]
        exact ⟨Int.ediv_nonneg hmin hpos.le, Int.ediv_le_ediv hpos hminmax, Int.ediv_le_of_le_mul hpos hmax⟩
  · refine ⟨⟨?_, ?_⟩, ?_⟩
    · rintro ⟨x, s, hs, hx⟩
      rw [if_pos (nrPairs_of_noIds hint hs)] at hx
      cases hx
    · rintro ⟨h200, hlt31, -⟩
      refine absurd ((toInt32_pos_iff hlt).mpr ⟨?_, hlt31⟩) hint
      by_contra hzero
      rw [Nat.lt_one_iff.mp (not_le.mp hzero), Nat.zero_mul] at hwrap
      omega
    · rintro lo hi ⟨s, hs, hx⟩
      rw [if_pos (nrPairs_of_noIds hint hs)] at hx
      cases hx

end Loop

/-! ### When the estimate is well defined -/

/-- The unsigned arithmetic of the search for an id does not wrap, for none of the lines it looks at. -/
def SearchExact {F : Type} (ls : List (Linha F)) (id : ℕ) : Prop :=
  ∀ (j : ℕ) (l : Linha F), ls[j]? = some l → (∀ i < j, ∀ l' : Linha F, ls[i]? = some l' → l'.hasId id = false) →
    l.nrBase + l.nrBlocks < 2 ^ 32 ∧ l.nrBase ≤ id

/-- The estimate is well defined for some random draws: neither the number of rounds nor a search wraps, and the result
is an interval of percentages. -/
structure EstimateOk (g : Generator) (percentage : ℕ) (raw : ℕ → ℕ) : Prop where
  rounds : g.totalUniqueBlocks * percentage < 2 ^ 32
  search : ∀ i < g.totalUniqueBlocks * percentage / 100, SearchExact g.linhas (1 + raw i % g.totalUniqueBlocks)
  result : ∃ lo hi, getMediaInter g percentage raw = .ok (lo, hi) ∧ 0 ≤ lo ∧ lo ≤ hi ∧ hi ≤ 100

/-- The line in which an id lies, counting the blocks of the lines, ends within an `int` and has a share for it. -/
def LineAnswers {F : Type} [Arith F] (ls : List (Linha F)) (id : ℕ) : Prop :=
  ∃ (j : ℕ) (l : Linha F), ls[j]? = some l ∧ start (ls.map Linha.nrBlocks) j < id ∧
    id ≤ start (ls.map Linha.nrBlocks) j + l.nrBlocks ∧ start (ls.map Linha.nrBlocks) j + l.nrBlocks < 2 ^ 31 ∧
    l.Answers (id - start (ls.map Linha.nrBlocks) j)

section Exact

variable {F : Type} {ls : List (Linha F)} {l l' : Linha F} {id i j : ℕ}

/-- The lines before the one in which an id lies. -/
theorem LinesOk.before (h : LinesOk ls) (hid : id < 2 ^ 31) (hlt : start (ls.map Linha.nrBlocks) j < id) (hij : i < j)
    (hi : ls[i]? = some l) : l.nrBase + l.nrBlocks < id ∧ l.hasId id = false := by
  have hk : (ls.map Linha.nrBlocks)[i]? = some l.nrBlocks := by rw [List.getElem?_map, hi, Option.map_some]
  have hend := span_le_start hk hij
  have hbase : l.nrBase = start (ls.map Linha.nrBlocks) i := by
    rw [h.base hi]
    exact u32_of_lt (by omega)
  have hpos := h.pos l (List.mem_of_getElem? hi)
  have hbefore : l.nrBase + l.nrBlocks < id := by omega
  refine ⟨hbefore, Bool.eq_false_iff.mpr fun hhas => ?_⟩
  obtain ⟨-, hle⟩ := (Linha.hasId_iff (by omega) hpos).mp hhas
  omega

/-- If the line of an id ends within an `int`, the search finds it, and nothing wraps on the way. -/
theorem LinesOk.find_of_lt (h : LinesOk ls) (hj : ls[j]? = some l) (hlo : start (ls.map Linha.nrBlocks) j < id)
    (hhi : id ≤ start (ls.map Linha.nrBlocks) j + l.nrBlocks)
    (hend : start (ls.map Linha.nrBlocks) j + l.nrBlocks < 2 ^ 31) :
    l.nrBase = start (ls.map Linha.nrBlocks) j ∧ (ls.find? fun l => l.hasId id) = some l ∧ SearchExact ls id := by
  have hbase : l.nrBase = start (ls.map Linha.nrBlocks) j := by
    rw [h.base hj]
    exact u32_of_lt (by omega)
  have hpos := h.pos l (List.mem_of_getElem? hj)
  have hhas : l.hasId id = true := (Linha.hasId_iff (by omega) hpos).mpr ⟨by omega, by omega⟩
  refine ⟨hbase, ?_, ?_⟩
  · rw [List.find?_eq_some_iff_getElem]
    obtain ⟨hlt, hget⟩ := List.getElem?_eq_some_iff.mp hj
    refine ⟨hhas, j, hlt, hget, fun i hij => ?_⟩
    rw [(h.before (by omega) hlo hij (List.getElem?_eq_getElem (by omega))).2]
    rfl
  · intro k l' hk hnone
    rcases Nat.lt_trichotomy k j with hlt | rfl | hgt
    · obtain ⟨hbefore, -⟩ := h.before (by omega) hlo hlt hk
      omega
    · rw [hj, Option.some.injEq] at hk
      subst hk
      omega
    · rw [hnone j hgt l hj] at hhas
      cases hhas

/-- The other way round: if nothing wraps, the line in which the id lies ends within an `int`. -/
theorem LinesOk.end_lt (h : LinesOk ls) (htotal : u32 (ls.map Linha.nrBlocks).sum < 2 ^ 31)
    (hid : id < 2 ^ 31) (hj : ls[j]? = some l) (hlo : start (ls.map Linha.nrBlocks) j < id) (hexact : SearchExact ls id) :
    start (ls.map Linha.nrBlocks) j + l.nrBlocks < 2 ^ 31 := by
  have hbefore : ∀ i < j, ∀ l' : Linha F, ls[i]? = some l' → l'.hasId id = false :=
    fun i hij l' hi => (h.before hid hlo hij hi).2
  have hbase : l.nrBase = start (ls.map Linha.nrBlocks) j := by
    rw [h.base hj]
    exact u32_of_lt (by omega)
  have hk : (ls.map Linha.nrBlocks)[j]? = some l.nrBlocks := by rw [List.getElem?_map, hj, Option.map_some]
  obtain ⟨hwrap, -⟩ := hexact j l hj hbefore
  by_contra hge
  -- the end is taken for a negative number, so that the search goes on to the next line
  have hnot : l.hasId id = false := by
    rw [Linha.hasId, Bool.and_eq_false_iff]
    right
    rw [decide_eq_false_iff_not]
    unfold toInt32
    split <;> omega
  have hnext : start (ls.map Linha.nrBlocks) (j + 1) = start (ls.map Linha.nrBlocks) j + l.nrBlocks := start_succ hk
  cases hl' : ls[j + 1]? with
  | none =>
    have hall : start (ls.map Linha.nrBlocks) (j + 1) = (ls.map Linha.nrBlocks).sum := by
      rw [start, List.take_of_length_le (by simpa using hl')]
    rw [← hall, hnext, u32_of_lt (by omega)] at htotal
    omega
  | some l' =>
    have hbase' : l'.nrBase = start (ls.map Linha.nrBlocks) (j + 1) := by
      rw [h.base hl']
      exact u32_of_lt (by omega)
    obtain ⟨-, hle⟩ := hexact (j + 1) l' hl' fun i hi l₀ h₀ => by
      rcases Nat.lt_succ_iff_lt_or_eq.mp hi with hlt | rfl
      · exact hbefore i hlt l₀ h₀
      · rw [hj, Option.some.injEq] at h₀
        exact h₀ ▸ hnot
    omega

/-- **Which ids are looked up without wrapping, and have a share.** -/
theorem LinesOk.lineAnswers_iff [Arith F] (h : LinesOk ls) (htotal : u32 (ls.map Linha.nrBlocks).sum < 2 ^ 31)
    (hid : 1 ≤ id ∧ id ≤ u32 (ls.map Linha.nrBlocks).sum) :
    SearchExact ls id ∧ AnswersId ls id ↔ LineAnswers ls id := by
  constructor
  · rintro ⟨hexact, l', hfind, hanswers⟩
    obtain ⟨j, n, hj, hlo, hhi⟩ := exists_span hid.1 (hid.2.trans (Nat.mod_le _ _))
    rw [List.getElem?_map, Option.map_eq_some_iff] at hj
    obtain ⟨l, hj, rfl⟩ := hj
    have hend := h.end_lt htotal (by omega) hj hlo hexact
    obtain ⟨hbase, hfind', -⟩ := h.find_of_lt hj hlo hhi hend
    rw [hfind', Option.some.injEq] at hfind
    subst hfind
    rw [hbase, ← Nat.cast_sub hlo.le, ofInt32_natCast (by omega)] at hanswers
    exact ⟨j, l, hj, hlo, hhi, hend, hanswers⟩
  · rintro ⟨j, l, hj, hlo, hhi, hend, hanswers⟩
    obtain ⟨hbase, hfind, hexact⟩ := h.find_of_lt hj hlo hhi hend
    refine ⟨hexact, l, hfind, ?_⟩
    rwa [hbase, ← Nat.cast_sub hlo.le, ofInt32_natCast (by omega)]

end Exact

/-- **When the estimate is well defined**, for a distribution that is read from a file: if there are at least two ids to
draw, their number and the ids fit the types they are computed in, and every line drawn has a share for its id. -/
theorem estimateOk_iff {n percentage : ℕ} {file : List Char} {s : ParseState} (hs : readLines n file = .ok s)
    {g : Generator} (hlinhas : g.linhas = s.linhas) (htotal : g.totalUniqueBlocks = s.totalUniqueBlocks)
    (hpct : 1 ≤ percentage ∧ percentage ≤ 99) (raw : ℕ → ℕ) :
    EstimateOk g percentage raw ↔ 200 ≤ g.totalUniqueBlocks * percentage ∧
      g.totalUniqueBlocks * percentage < 2 ^ 32 ∧ g.totalUniqueBlocks < 2 ^ 31 ∧
      ∀ i < g.totalUniqueBlocks * percentage / 100, LineAnswers g.linhas (1 + raw i % g.totalUniqueBlocks) := by
  have hparse := readLines_parseOk hs
  have hlines : LinesOk g.linhas := hlinhas ▸ hparse.lines
  have hsum : g.totalUniqueBlocks = u32 g.blockCounts.sum := by
    rw [htotal, hparse.total, Generator.blockCounts, hlinhas]
  have hids : 1 ≤ g.totalUniqueBlocks → ∀ i,
      1 ≤ 1 + raw i % g.totalUniqueBlocks ∧ 1 + raw i % g.totalUniqueBlocks ≤ u32 (g.linhas.map Linha.nrBlocks).sum := by
    intro hpos i
    have hmod : raw i % g.totalUniqueBlocks < g.totalUniqueBlocks := Nat.mod_lt _ hpos
    have hsum' : u32 (g.linhas.map Linha.nrBlocks).sum = g.totalUniqueBlocks := hsum.symm
    omega
  obtain ⟨hiff, hbounds⟩ := getMediaInter_ok_iff hlines hsum hpct raw
  constructor
  · rintro ⟨hrounds, hsearch, lo, hi, hok, -⟩
    obtain ⟨h200, hlt, hanswers⟩ := hiff.mp ⟨_, hok⟩
    rw [u32_of_lt hrounds] at h200 hanswers
    have hpos : 1 ≤ g.totalUniqueBlocks := Nat.pos_of_mul_pos_right (by omega : 0 < g.totalUniqueBlocks * percentage)
    exact ⟨h200, hrounds, hlt, fun i hi => (hlines.lineAnswers_iff (hsum ▸ hlt) (hids hpos i)).mp
      ⟨hsearch i hi, hanswers i hi⟩⟩
  · rintro ⟨h200, hrounds, hlt, hanswers⟩
    have hpos : 1 ≤ g.totalUniqueBlocks := Nat.pos_of_mul_pos_right (by omega : 0 < g.totalUniqueBlocks * percentage)
    have hboth : ∀ i < g.totalUniqueBlocks * percentage / 100, _ := fun i hi =>
      (hlines.lineAnswers_iff (hsum ▸ hlt) (hids hpos i)).mpr (hanswers i hi)
    obtain ⟨⟨lo, hi⟩, hok⟩ := hiff.mpr (by
      rw [u32_of_lt hrounds]
      exact ⟨h200, hlt, fun i hi => (hboth i hi).2⟩)
    exact ⟨hrounds, fun i hi => (hboth i hi).1, lo, hi, hok, hbounds lo hi hok⟩

/-- The generator as the estimate finds it. -/
def Generator.withLines (g : Generator) (s : ParseState) : Generator :=
  { g with
    linhas := s.linhas
    weights := s.weights
    zeroCopiesBlocks := s.zeroCopiesBlocks
    totalUniqueBlocks := s.totalUniqueBlocks }

theorem estimateOk_400 : ∃ s, readLines 400 plainDistribution = .ok s ∧
    EstimateOk ((Generator.mk' 4096 400 2 25).withLines s) 2 fun _ => 0 := by
  have hread : okWith (readLines 400 plainDistribution) (fun s => s.totalUniqueBlocks = 300 &&
      (s.linhas.head?.any fun l => l.nrBlocks = 200 && 10 ≤ l.compression.length)) = true := by decide +kernel
  obtain ⟨s, hs, htest⟩ := exists_of_okWith hread
  rw [Bool.and_eq_true, decide_eq_true_eq, Option.any_eq_true] at htest
  obtain ⟨htotal, l, hl, hline⟩ := htest
  rw [Bool.and_eq_true, decide_eq_true_eq, decide_eq_true_eq] at hline
  obtain ⟨hblocks, hlen⟩ := hline
  refine ⟨s, hs, (estimateOk_iff hs rfl rfl (by decide) _).mpr ?_⟩
  simp only [Generator.withLines, htotal]
  refine ⟨by decide, by decide, by decide, fun i _ => ⟨0, l, ?_, ?_⟩⟩
  · rw [← hl, List.head?_eq_getElem?]
  · rw [start_zero, hblocks]
    exact ⟨by decide, by decide, by decide, .inl hlen⟩

/-- With 12 different blocks, ten percent are one block, and the means are over no pair. -/
theorem not_estimateOk_16 : ∃ s, readLines 16 plainDistribution = .ok s ∧ 1 ≤ s.totalUniqueBlocks ∧
    ∀ raw, ¬ EstimateOk ((Generator.mk' 4096 16 10 25).withLines s) 10 raw := by
  have hread : okWith (readLines 16 plainDistribution) (fun s => s.totalUniqueBlocks = 12) = true := by decide +kernel
  obtain ⟨s, hs, htest⟩ := exists_of_okWith hread
  have htotal : s.totalUniqueBlocks = 12 := of_decide_eq_true htest
  refine ⟨s, hs, by omega, fun raw ⟨_, _, lo, hi, hok, _⟩ => ?_⟩
  have hparse := readLines_parseOk hs
  obtain ⟨h200, -⟩ := (getMediaInter_ok_iff (g := (Generator.mk' 4096 16 10 25).withLines s) hparse.lines hparse.total
    (by decide) raw).1.mp ⟨_, hok⟩
  simp only [Generator.withLines, htotal] at h200
  exact absurd h200 (by decide)

end Dedisbench
