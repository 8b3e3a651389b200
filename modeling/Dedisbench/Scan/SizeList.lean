import Mathlib.Data.List.ReduceOption
import Dedisbench.Scan.Extract
import Dedisbench.Bench.Config

/-!
# The list of block sizes

`str_split` counts the commas of a `-b` argument, adds the count to what the earlier arguments gave, and fills a new
array with the tokens of this argument.  Every entry is filled exactly when there is one argument and it has no empty
item (`sizes_complete_iff`), and the scan ends for every file exactly when moreover every item is positive
(`scan_ends_iff`).
-/

namespace Dedisbench

open Text ExceptRun

/-! ### Reading the list -/

/-- `nr_sizes_proc` and `sizes_proc`; `none` is an entry that has not been assigned. -/
structure SizesProc where
  nrSizesProc : ℕ
  sizesProc : List (Option ℤ)
deriving DecidableEq

/-- `nr_sizes_proc++` -/
def addSize (nrSizesProc : ℕ) : Exec ℕ :=
  if nrSizesProc + 1 < 2 ^ 31 then .ok (nrSizesProc + 1) else .error .undefined

/-- The first loop of `str_split`, and the item that needs no comma. -/
def countSizes (nrSizesProc : ℕ) (aStr : List Char) : Exec ℕ := do
  let nrSizesProc ← aStr.foldlM (fun nr c => if ',' = c then addSize nr else .ok nr) nrSizesProc
  addSize nrSizesProc

/-- The second loop of `str_split`; `i` is the position of the next entry. -/
def assignSizes : ℕ → List (Option ℤ) → List (List Char) → Exec (List (Option ℤ))
  | _, sizesProc, [] => .ok sizesProc
  | i, sizesProc, token :: rest =>
    if i < sizesProc.length then assignSizes (i + 1) (sizesProc.set i (some (atoi token))) rest
    else .error .undefined

def strSplit (s : SizesProc) (aStr : List Char) : Exec SizesProc := do
  let nrSizesProc ← countSizes s.nrSizesProc aStr
  let sizesProc ← assignSizes 0 (List.replicate nrSizesProc none) (tokens ',' aStr)
  .ok ⟨nrSizesProc, sizesProc⟩

/-- The sizes `main` goes on with, `args` being the values of the `-b` arguments in their order. -/
def parseSizes (args : List (List Char)) : Exec SizesProc := do
  let s ← args.foldlM strSplit ⟨0, []⟩
  .ok (if s.nrSizesProc = 0 then ⟨1, [some 4096]⟩ else s)

/-- The items of a list of sizes. -/
abbrev items (aStr : List Char) : List (List Char) := aStr.splitOn ','

theorem items_pos (aStr : List Char) : 0 < (items aStr).length :=
  List.length_pos_iff.mpr (List.splitOn_ne_nil _ _)

/-! ### One argument -/

theorem addSize_eq_ok {nr nr' : ℕ} : addSize nr = .ok nr' ↔ nr + 1 < 2 ^ 31 ∧ nr' = nr + 1 := by
  unfold addSize
  split
  next h => simp only [Except.ok.injEq, h, true_and, eq_comm]
  next h => simp only [reduceCtorEq, h, false_and]

theorem foldlM_addSize_eq_ok {nr nr' : ℕ} {aStr : List Char} (hnr : nr < 2 ^ 31) :
    aStr.foldlM (fun nr c => if ',' = c then addSize nr else .ok nr) nr = .ok nr' ↔
      nr + aStr.count ',' < 2 ^ 31 ∧ nr' = nr + aStr.count ',' := by
  induction aStr generalizing nr with
  | nil =>
    rw [foldlM_nil_eq_ok, List.count_nil, Nat.add_zero, eq_comm]
    exact (and_iff_right hnr).symm
  | cons c aStr ih =>
    rw [foldlM_cons_eq_ok]
    by_cases hc : ',' = c
    · subst hc
      simp only [if_true, addSize_eq_ok, List.count_cons_self]
      constructor
      · rintro ⟨_, ⟨hlt, rfl⟩, hrest⟩
        have := (ih hlt).mp hrest
        omega
      · rintro ⟨hlt, rfl⟩
        exact ⟨nr + 1, ⟨by omega, rfl⟩, (ih (by omega)).mpr ⟨by omega, by omega⟩⟩
    · simp only [if_neg hc, List.count_cons_of_ne (Ne.symm hc), Except.ok.injEq]
      constructor
      · rintro ⟨_, rfl, hrest⟩
        exact (ih hnr).mp hrest
      · intro h
        exact ⟨nr, rfl, (ih hnr).mpr h⟩

/-- The count grows by the number of items. -/
theorem countSizes_eq_ok {nr nr' : ℕ} {aStr : List Char} (hnr : nr < 2 ^ 31) :
    countSizes nr aStr = .ok nr' ↔ nr + (items aStr).length < 2 ^ 31 ∧ nr' = nr + (items aStr).length := by
  simp only [countSizes, bind_eq_ok, foldlM_addSize_eq_ok hnr, addSize_eq_ok, length_splitOn]
  constructor
  · rintro ⟨_, ⟨-, rfl⟩, hlt, rfl⟩
    omega
  · rintro ⟨hlt, rfl⟩
    exact ⟨nr + aStr.count ',', ⟨by omega, rfl⟩, by omega, by omega⟩

/-- An array of `n` entries of which the tokens fill the first ones. -/
def filled (n : ℕ) (words : List (List Char)) : List (Option ℤ) :=
  words.map (fun token => some (atoi token)) ++ List.replicate (n - words.length) none

theorem assignSizes_eq {words : List (List Char)} {k : ℕ} (hk : words.length ≤ k) (done : List (Option ℤ)) :
    assignSizes done.length (done ++ List.replicate k none) words = .ok (done ++ filled k words) := by
  induction words generalizing k done with
  | nil => rfl
  | cons token words ih =>
    cases k with
    | zero => exact absurd hk (Nat.not_succ_le_zero _)
    | succ k =>
      have hlt : done.length < (done ++ List.replicate (k + 1) none).length := by
        rw [List.length_append, List.length_replicate]
        omega
      have hset : (done ++ List.replicate (k + 1) none).set done.length (some (atoi token)) =
          (done ++ [some (atoi token)]) ++ List.replicate k none := by
        rw [List.set_append_right _ _ le_rfl, Nat.sub_self, List.replicate_succ, List.set_cons_zero,
          List.append_assoc, List.singleton_append]
      have hnext := ih (Nat.le_of_succ_le_succ hk) (done ++ [some (atoi token)])
      rw [List.length_append, List.length_singleton] at hnext
      rw [assignSizes, if_pos hlt, hset, hnext, filled, filled, List.map_cons, List.append_assoc,
        List.singleton_append, List.cons_append, List.length_cons, Nat.succ_sub_succ]

/-- The loop over the tokens stays inside the array: there are at most as many tokens as items. -/
theorem strSplit_eq_ok {s s' : SizesProc} {aStr : List Char} (hs : s.nrSizesProc < 2 ^ 31) :
    strSplit s aStr = .ok s' ↔
      s.nrSizesProc + (items aStr).length < 2 ^ 31 ∧
        s' = ⟨s.nrSizesProc + (items aStr).length,
          filled (s.nrSizesProc + (items aStr).length) (tokens ',' aStr)⟩ := by
  have hassign (nr : ℕ) (hnr : (items aStr).length ≤ nr) :
      assignSizes 0 (List.replicate nr none) (tokens ',' aStr) = .ok (filled nr (tokens ',' aStr)) :=
    assignSizes_eq ((length_tokens_le ',' aStr).trans hnr) []
  simp only [strSplit, bind_eq_ok, countSizes_eq_ok hs]
  constructor
  · rintro ⟨_, ⟨hlt, rfl⟩, sizesProc, hsizes, heq⟩
    rw [hassign _ (Nat.le_add_left _ _), Except.ok.injEq] at hsizes
    rw [Except.ok.injEq] at heq
    exact ⟨hlt, by rw [← heq, ← hsizes]⟩
  · rintro ⟨hlt, rfl⟩
    exact ⟨_, ⟨hlt, rfl⟩, _, hassign _ (Nat.le_add_left _ _), rfl⟩

/-! ### All arguments -/

/-- The items of all arguments. -/
def nrItems (args : List (List Char)) : ℕ := (args.map fun aStr => (items aStr).length).sum

theorem nrItems_append (args args' : List (List Char)) : nrItems (args ++ args') = nrItems args + nrItems args' := by
  rw [nrItems, List.map_append, List.sum_append, nrItems, nrItems]

theorem nrItems_singleton (aStr : List Char) : nrItems [aStr] = (items aStr).length := Nat.add_zero _

theorem nrItems_eq_zero {args : List (List Char)} (h : nrItems args = 0) : args = [] := by
  cases args with
  | nil => rfl
  | cons aStr args =>
    have hcons : nrItems (aStr :: args) = (items aStr).length + nrItems args := rfl
    have := items_pos aStr
    omega

/-- The count is that of all arguments, the array is filled from the last one. -/
theorem foldlM_strSplit_eq_ok {args : List (List Char)} {aStr : List Char} {s : SizesProc} :
    (args ++ [aStr]).foldlM strSplit ⟨0, []⟩ = .ok s ↔
      nrItems (args ++ [aStr]) < 2 ^ 31 ∧
        s = ⟨nrItems (args ++ [aStr]), filled (nrItems (args ++ [aStr])) (tokens ',' aStr)⟩ := by
  induction args using List.reverseRecOn generalizing aStr s with
  | nil =>
    simp only [List.nil_append, foldlM_cons_eq_ok, foldlM_nil_eq_ok, exists_eq_right, nrItems_singleton]
    rw [strSplit_eq_ok (by norm_num), Nat.zero_add]
  | append_singleton args first ih =>
    simp only [foldlM_append_eq_ok, ih, foldlM_cons_eq_ok, foldlM_nil_eq_ok, exists_eq_right]
    rw [nrItems_append _ [aStr], nrItems_singleton]
    constructor
    · rintro ⟨_, ⟨hlt, rfl⟩, hlast⟩
      exact (strSplit_eq_ok hlt).mp hlast
    · intro h
      have hlt : nrItems (args ++ [first]) < 2 ^ 31 := (Nat.le_add_right _ _).trans_lt h.1
      exact ⟨_, ⟨hlt, rfl⟩, (strSplit_eq_ok hlt).mpr h⟩

theorem parseSizes_nil : parseSizes [] = .ok ⟨1, [some 4096]⟩ := rfl

theorem parseSizes_eq_ok {args : List (List Char)} {aStr : List Char} {s : SizesProc} :
    parseSizes (args ++ [aStr]) = .ok s ↔
      nrItems (args ++ [aStr]) < 2 ^ 31 ∧
        s = ⟨nrItems (args ++ [aStr]), filled (nrItems (args ++ [aStr])) (tokens ',' aStr)⟩ := by
  have hpos : nrItems (args ++ [aStr]) ≠ 0 := fun h => by
    simpa using nrItems_eq_zero h
  simp only [parseSizes, bind_eq_ok, foldlM_strSplit_eq_ok, Except.ok.injEq]
  constructor
  · rintro ⟨_, ⟨hlt, rfl⟩, rfl⟩
    exact ⟨hlt, if_neg hpos⟩
  · rintro ⟨hlt, rfl⟩
    exact ⟨_, ⟨hlt, rfl⟩, if_neg hpos⟩

theorem parseSizes_singleton_eq_ok {aStr : List Char} {s : SizesProc} :
    parseSizes [aStr] = .ok s ↔ (items aStr).length < 2 ^ 31 ∧
      s = ⟨(items aStr).length, filled (items aStr).length (tokens ',' aStr)⟩ := by
  have h := @parseSizes_eq_ok [] aStr s
  rwa [List.nil_append, nrItems_singleton] at h

/-! ### Which entries are assigned -/

theorem filled_getElem? {n i : ℕ} {words : List (List Char)} {b : ℤ} :
    (filled n words)[i]? = some (some b) ↔ ∃ token, words[i]? = some token ∧ atoi token = b := by
  rw [filled]
  rcases Nat.lt_or_ge i words.length with hi | hi
  · rw [List.getElem?_append_left (by rwa [List.length_map]), List.getElem?_map]
    simp only [Option.map_eq_some_iff, Option.some.injEq]
  · rw [List.getElem?_append_right (by rwa [List.length_map]), List.getElem?_replicate,
      List.getElem?_eq_none hi]
    constructor
    · intro h
      split at h <;> simp at h
    · rintro ⟨token, h, -⟩
      cases h

theorem reduceOption_filled (n : ℕ) (words : List (List Char)) : (filled n words).reduceOption = words.map atoi := by
  rw [filled, List.reduceOption_append, List.reduceOption_replicate_none, List.append_nil, List.reduceOption,
    List.filterMap_map]
  change words.filterMap (some ∘ atoi) = words.map atoi
  rw [List.filterMap_eq_map]

/-- All entries of a filled array are assigned when there are no more entries than tokens. -/
theorem filled_assigned_iff {n : ℕ} {words : List (List Char)} :
    (∀ i < n, ∃ b, (filled n words)[i]? = some (some b)) ↔ n ≤ words.length := by
  simp only [filled_getElem?]
  constructor
  · intro h
    by_contra hlt
    obtain ⟨_, token, htoken, -⟩ := h words.length (not_le.mp hlt)
    rw [List.getElem?_eq_none le_rfl] at htoken
    cases htoken
  · intro hn i hi
    exact ⟨_, words[i], List.getElem?_eq_getElem (hi.trans_le hn), rfl⟩

/-- `main` and `extract_blocks` read assigned entries only. -/
def SizesProc.Assigned (s : SizesProc) : Prop := ∀ i < s.nrSizesProc, ∃ b, s.sizesProc[i]? = some (some b)

/-- The tokens of the last argument fill the array only if it is the first one and has no empty item. -/
theorem nrItems_le_iff {args : List (List Char)} {aStr : List Char} :
    nrItems (args ++ [aStr]) ≤ (tokens ',' aStr).length ↔ args = [] ∧ [] ∉ items aStr := by
  have hle : (tokens ',' aStr).length ≤ (items aStr).length := length_tokens_le ',' aStr
  have heq : (tokens ',' aStr).length = (items aStr).length ↔ [] ∉ items aStr := length_tokens_eq_iff
  rw [nrItems_append, nrItems_singleton, ← heq]
  constructor
  · intro h
    exact ⟨nrItems_eq_zero (by omega), by omega⟩
  · rintro ⟨rfl, heq⟩
    rw [show nrItems [] = 0 from rfl]
    omega

/-- **Every entry is assigned exactly when there is no `-b` argument, or one without an empty item.** -/
theorem assigned_iff {args : List (List Char)} {s : SizesProc} (h : parseSizes args = .ok s) :
    s.Assigned ↔ args = [] ∨ ∃ aStr, args = [aStr] ∧ [] ∉ items aStr := by
  rcases List.eq_nil_or_concat' args with rfl | ⟨args, aStr, rfl⟩
  · rw [parseSizes_nil, Except.ok.injEq] at h
    subst h
    refine iff_of_true (fun i hi => ⟨4096, ?_⟩) (.inl rfl)
    rw [Nat.lt_one_iff.mp hi, List.getElem?_cons_zero]
  · obtain ⟨-, rfl⟩ := parseSizes_eq_ok.mp h
    rw [SizesProc.Assigned, filled_assigned_iff, nrItems_le_iff]
    constructor
    · rintro ⟨rfl, hne⟩
      exact .inr ⟨aStr, rfl, hne⟩
    · rintro (hnil | ⟨aStr', heq, hne⟩)
      · simp at hnil
      · obtain ⟨rfl, rfl⟩ : args = [] ∧ aStr = aStr' := by
          rw [List.append_eq_singleton_iff] at heq
          simpa using heq
        exact ⟨rfl, hne⟩

/-! ### When the list is complete -/

/-- The values of the items of the last list that are not empty, or else the size that is the default. -/
def lastSizes (args : List (List Char)) : List ℤ :=
  args.getLast?.elim [4096] fun aStr => ((items aStr).filter (· ≠ [])).map atoi

/-- The count is that of the assigned entries, none is read unassigned, and they are the sizes of the last list. -/
structure SizesProc.Complete (s : SizesProc) (args : List (List Char)) : Prop where
  count : s.nrSizesProc = s.sizesProc.reduceOption.length
  assigned : s.Assigned
  sizes : s.sizesProc.reduceOption = lastSizes args

/-- **The list is parsed completely exactly when there is no `-b` argument, or one without an empty item whose items
can be counted in an `int`.** -/
theorem sizes_complete_iff (args : List (List Char)) :
    (∃ s, parseSizes args = .ok s ∧ s.Complete args) ↔
      args = [] ∨ ∃ aStr, args = [aStr] ∧ [] ∉ aStr.splitOn ',' ∧ (aStr.splitOn ',').length < 2 ^ 31 := by
  constructor
  · rintro ⟨s, hs, hcomplete⟩
    rcases (assigned_iff hs).mp hcomplete.assigned with rfl | ⟨aStr, rfl, hne⟩
    · exact .inl rfl
    · exact .inr ⟨aStr, rfl, hne, (parseSizes_singleton_eq_ok.mp hs).1⟩
  · rintro (rfl | ⟨aStr, rfl, hne, hlt⟩)
    · exact ⟨_, parseSizes_nil, rfl, (assigned_iff parseSizes_nil).mpr (.inl rfl), rfl⟩
    · have hs := parseSizes_singleton_eq_ok.mpr ⟨hlt, rfl⟩
      refine ⟨_, hs, ?_, (assigned_iff hs).mpr (.inr ⟨aStr, rfl, hne⟩), ?_⟩
      · rw [reduceOption_filled, List.length_map, length_tokens_eq_iff.mpr hne]
      · rw [reduceOption_filled, tokens_eq]
        rfl

/-- `-b4096,` -/
theorem trailingComma_not_complete :
    ¬ ∃ s, parseSizes [['4', '0', '9', '6', ',']] = .ok s ∧ s.Complete [['4', '0', '9', '6', ',']] := by
  rintro ⟨s, hs, hcomplete⟩
  rcases (assigned_iff hs).mp hcomplete.assigned with h | ⟨aStr, h, hne⟩
  · cases h
  · obtain rfl : ['4', '0', '9', '6', ','] = aStr := List.singleton_inj.mp h
    exact hne (by decide)

/-! ### When the scan ends -/

/-- `size_proced` before round `k` of the loop over the blocks of one size. -/
def sizeProcedAt (sizeBlock : ℤ) : ℕ → ℤ
  | 0 => 0
  | k + 1 => sizeProcedAt sizeBlock k + sizeBlock

theorem sizeProcedAt_eq (sizeBlock : ℤ) (k : ℕ) : sizeProcedAt sizeBlock k = k * sizeBlock := by
  induction k with
  | zero => rw [sizeProcedAt, Nat.cast_zero, zero_mul]
  | succ k ih => rw [sizeProcedAt, ih, Nat.cast_succ, add_one_mul]

/-- The loop over the blocks of one size in a read of `aux` bytes: the rest gets smaller in every round, until it is
smaller than the size. -/
def ChunkingEnds (aux sizeBlock : ℤ) : Prop :=
  ∃ n, aux - sizeProcedAt sizeBlock n < sizeBlock ∧
    ∀ k < n, sizeBlock ≤ aux - sizeProcedAt sizeBlock k ∧
      aux - sizeProcedAt sizeBlock (k + 1) < aux - sizeProcedAt sizeBlock k

theorem chunkingEnds_iff {aux sizeBlock : ℤ} (haux : 0 < aux) : ChunkingEnds aux sizeBlock ↔ 1 ≤ sizeBlock := by
  simp only [ChunkingEnds, sizeProcedAt_eq]
  constructor
  · rintro ⟨n, hend, -⟩
    by_contra hsize
    -- a size that is not positive leaves at least the whole read
    have : (n : ℤ) * sizeBlock ≤ 0 := mul_nonpos_of_nonneg_of_nonpos (Int.natCast_nonneg n) (by omega)
    omega
  · intro hsize
    have hn : ((aux / sizeBlock).toNat : ℤ) = aux / sizeBlock :=
      Int.toNat_of_nonneg (Int.ediv_nonneg haux.le (by omega))
    have hdiv := Int.ediv_mul_add_emod aux sizeBlock
    refine ⟨(aux / sizeBlock).toNat, ?_, fun k hk => ?_⟩
    · have := Int.emod_lt_of_pos aux (by omega : 0 < sizeBlock)
      rw [hn]
      omega
    · have hle : ((k : ℤ) + 1) * sizeBlock ≤ aux / sizeBlock * sizeBlock :=
        mul_le_mul_of_nonneg_right (by omega) (by omega)
      have := Int.emod_nonneg aux (by omega : sizeBlock ≠ 0)
      rw [Nat.cast_succ]
      rw [add_one_mul] at hle ⊢
      omega

/-- The loop of the model comes to its end when this one does. -/
theorem chunkLoop_ok_iff {σ : Type} (check : σ → List UInt8 → σ) {blockRead : List UInt8} (hne : blockRead ≠ [])
    (sizeBlock : ℤ) (x : σ) :
    (∃ x', chunkLoop check blockRead sizeBlock x = .ok x') ↔ ChunkingEnds blockRead.length sizeBlock := by
  rw [chunkingEnds_iff (by exact_mod_cast List.length_pos_iff.mpr hne)]
  exact ⟨fun ⟨_, h⟩ => pos_of_chunkLoop h, fun hsize => ⟨_, chunkLoop_eq check blockRead hsize x⟩⟩

/-- The sizes `extract_blocks` reads, `junk` being what `malloc` left in the entries that are not assigned. -/
def SizesProc.values (s : SizesProc) (junk : ℕ → ℤ) : List ℤ :=
  (List.range s.nrSizesProc).map fun i => s.sizesProc[i]?.join.getD (junk i)

/-- For every read and every content the loops of `extract_blocks` come to their ends. -/
structure SizesProc.ScanEnds (s : SizesProc) : Prop where
  chunking : ∀ junk, ∀ size ∈ s.values junk, ∀ aux : ℤ, 0 < aux → aux ≤ readsize → ChunkingEnds aux size
  scan : ∀ junk, ∀ (σ : Type) (check : ℕ → ℤ → σ → List UInt8 → σ) (file : Option (List UInt8)) (x : σ),
    ∃ x', extractBlocks check (s.values junk) file x = .ok x'

theorem values_pos_iff {s : SizesProc} :
    (∀ junk, ∀ size ∈ s.values junk, 1 ≤ size) ↔ ∀ i < s.nrSizesProc, ∃ b, s.sizesProc[i]? = some (some b) ∧ 1 ≤ b := by
  simp only [SizesProc.values, List.forall_mem_map, List.mem_range]
  constructor
  · intro h i hi
    have hsize := h (fun _ => 0) i hi
    rcases hentry : s.sizesProc[i]? with _ | _ | b
    · rw [hentry] at hsize
      exact absurd hsize (by decide)
    · rw [hentry] at hsize
      exact absurd hsize (by decide)
    · rw [hentry] at hsize
      exact ⟨b, rfl, hsize⟩
  · intro h junk i hi
    obtain ⟨b, hentry, hb⟩ := h i hi
    rw [hentry]
    exact hb

theorem scanEnds_iff_pos {s : SizesProc} : s.ScanEnds ↔ ∀ junk, ∀ size ∈ s.values junk, 1 ≤ size := by
  constructor
  · intro h junk size hsize
    exact (chunkingEnds_iff zero_lt_one).mp (h.chunking junk size hsize 1 zero_lt_one (by norm_num [readsize]))
  · intro h
    exact ⟨fun junk size hsize aux haux _ => (chunkingEnds_iff haux).mpr (h junk size hsize),
      fun junk _ _ _ x => extractBlocks_ok (fun _ _ _ => h junk) x⟩

theorem atoi_nil : atoi [] = 0 := by decide

/-- **The scan ends for every file exactly when there is no `-b` argument, or one whose items are all positive.** -/
theorem scan_ends_iff {args : List (List Char)} {s : SizesProc} (h : parseSizes args = .ok s) :
    s.ScanEnds ↔ args = [] ∨ ∃ aStr, args = [aStr] ∧ ∀ item ∈ aStr.splitOn ',', 1 ≤ atoi item := by
  rw [scanEnds_iff_pos, values_pos_iff]
  constructor
  · intro hpos
    have hassigned : s.Assigned := fun i hi => (hpos i hi).imp fun _ hb => hb.1
    rcases (assigned_iff h).mp hassigned with rfl | ⟨aStr, rfl, hne⟩
    · exact .inl rfl
    · obtain ⟨-, rfl⟩ := parseSizes_singleton_eq_ok.mp h
      refine .inr ⟨aStr, rfl, fun item hitem => ?_⟩
      have hmem : item ∈ tokens ',' aStr := by
        rw [tokens_eq, List.mem_filter]
        refine ⟨hitem, decide_eq_true ?_⟩
        rintro rfl
        exact hne hitem
      obtain ⟨i, hi⟩ := List.mem_iff_getElem?.mp hmem
      have hlt : i < (items aStr).length :=
        (List.getElem?_eq_some_iff.mp hi).1.trans_le (length_tokens_le ',' aStr)
      obtain ⟨b, hb, hle⟩ := hpos i hlt
      obtain ⟨token, htoken, rfl⟩ := filled_getElem?.mp hb
      rw [hi, Option.some.injEq] at htoken
      rwa [htoken]
  · rintro (rfl | ⟨aStr, rfl, hitems⟩)
    · rw [parseSizes_nil, Except.ok.injEq] at h
      subst h
      intro i hi
      rw [Nat.lt_one_iff.mp hi]
      exact ⟨4096, rfl, by norm_num⟩
    · have hne : [] ∉ items aStr := fun hmem => absurd (hitems [] hmem) (by rw [atoi_nil]; norm_num)
      have hassigned := (assigned_iff h).mpr (.inr ⟨aStr, rfl, hne⟩)
      obtain ⟨-, rfl⟩ := parseSizes_singleton_eq_ok.mp h
      intro i hi
      obtain ⟨b, hb⟩ := hassigned i hi
      obtain ⟨token, htoken, rfl⟩ := filled_getElem?.mp hb
      have hmem := List.mem_of_getElem? htoken
      rw [tokens_eq] at hmem
      exact ⟨_, hb, hitems token (List.mem_of_mem_filter hmem)⟩

/-- `-b1024,4096` -/
theorem twoSizes_end :
    ∃ s, parseSizes [['1', '0', '2', '4', ',', '4', '0', '9', '6']] = .ok s ∧ s.ScanEnds := by
  have hs : parseSizes [['1', '0', '2', '4', ',', '4', '0', '9', '6']] = .ok ⟨2, [some 1024, some 4096]⟩ := by decide
  exact ⟨_, hs, (scan_ends_iff hs).mpr (.inr ⟨_, rfl, by decide⟩)⟩

/-- `-b0` -/
theorem zeroSize_not_ends : ¬ ∀ s, parseSizes [['0']] = .ok s → s.ScanEnds := by
  intro h
  have hs : parseSizes [['0']] = .ok ⟨1, [some 0]⟩ := by decide
  have hpos := scanEnds_iff_pos.mp (h _ hs) (fun _ => 0) 0 (by decide)
  exact absurd hpos (by decide)

end Dedisbench
