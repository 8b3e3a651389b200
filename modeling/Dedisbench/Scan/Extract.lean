import Dedisbench.Lib.Cut
import Dedisbench.Scan.Counters

/-!
# The blocks of a file

`extract_blocks` cuts what every read returns on its own, so the blocks it hands out for one size
are the blocks of the reads (`extractBlocks_spec`).  They are the blocks of the file exactly when
the size divides the size of a read or the first read holds them all (`blocks_cut_at_multiples_iff`).
-/

namespace Dedisbench

open Cut ExceptRun

/-! ### The loops -/

section Loops

variable {σ : Type}

theorem chunkLoop_go_eq (check : σ → List UInt8 → σ) (blockRead : List UInt8) (size : ℕ) (hsize : 0 < size)
    (sizeProced : ℕ) (s : σ) :
    chunkLoop.go check blockRead size hsize sizeProced s =
      (cut size (blockRead.drop sizeProced)).foldl check s := by
  induction sizeProced, s using chunkLoop.go.induct check blockRead size hsize with
  | case1 sizeProced s h ih =>
    have hle : size ≤ (blockRead.drop sizeProced).length := by rwa [List.length_drop]
    rw [chunkLoop.go, if_pos h, ih, cut_cons hsize hle, List.foldl_cons, List.drop_drop]
  | case2 sizeProced s h =>
    have hlt : (blockRead.drop sizeProced).length < size := by
      rw [List.length_drop]
      omega
    rw [chunkLoop.go, if_neg h, cut_of_length_lt hlt, List.foldl_nil]

theorem chunkLoop_eq (check : σ → List UInt8 → σ) (blockRead : List UInt8) {size : ℤ} (hsize : 1 ≤ size) (s : σ) :
    chunkLoop check blockRead size s = .ok ((cut size.toNat blockRead).foldl check s) := by
  rw [chunkLoop, if_neg (by omega), dif_neg (by omega), chunkLoop_go_eq, List.drop_zero]

variable {check : ℕ → ℤ → σ → List UInt8 → σ} {sizesProc : List ℤ} {τ : Type} {proj : σ → τ}
  {step : τ → List UInt8 → τ} {id b : ℕ}

/-- The blocks of another size do not change the part of the state that belongs to the size at `id`. -/
theorem foldl_proj_of_ne (hother : ∀ i size s block, i ≠ id → proj (check i size s block) = proj s)
    {i : ℕ} (hi : i ≠ id) (size : ℤ) (blocks : List (List UInt8)) (s : σ) :
    proj (blocks.foldl (check i size) s) = proj s := by
  induction blocks generalizing s with
  | nil => rfl
  | cons block blocks ih => rw [List.foldl_cons, ih, hother i size s block hi]

theorem foldl_proj_self (hself : ∀ s block, proj (check id b s block) = step (proj s) block)
    (blocks : List (List UInt8)) (s : σ) :
    proj (blocks.foldl (check id b) s) = blocks.foldl step (proj s) := by
  induction blocks generalizing s with
  | nil => rfl
  | cons block blocks ih => rw [List.foldl_cons, ih, hself, List.foldl_cons]

/-- The loop over the sizes, for the part of the state that belongs to the size at position `id`;
`k` is the position of the first size still to come. -/
theorem sizesLoop_proj (hother : ∀ i size s block, i ≠ id → proj (check i size s block) = proj s)
    (hself : ∀ s block, proj (check id b s block) = step (proj s) block) (hpos : ∀ size ∈ sizesProc, 1 ≤ size)
    (blockRead : List UInt8) (k : ℕ) (s : σ) :
    ∃ s', (sizesProc.zipIdx k).foldlM (fun s size => chunkLoop (check size.2 size.1) blockRead size.1 s) s = .ok s' ∧
      (k ≤ id → sizesProc[id - k]? = some (b : ℤ) → proj s' = (cut b blockRead).foldl step (proj s)) ∧
      (id < k → proj s' = proj s) := by
  induction sizesProc generalizing k s with
  | nil =>
    refine ⟨s, rfl, fun _ h => ?_, fun _ => rfl⟩
    rw [List.getElem?_nil] at h
    cases h
  | cons size sizesProc ih =>
    have hsize := hpos size List.mem_cons_self
    obtain ⟨s', hs', hlater, hdone⟩ := ih (fun size h => hpos size (List.mem_cons_of_mem _ h)) (k + 1)
      ((cut size.toNat blockRead).foldl (check k size) s)
    refine ⟨s', ?_, ?_, ?_⟩
    · rw [List.zipIdx_cons, foldlM_cons_eq_ok]
      exact ⟨_, chunkLoop_eq _ _ hsize s, hs'⟩
    · intro hk hb
      rcases Nat.eq_or_lt_of_le hk with rfl | hlt
      · rw [Nat.sub_self, List.getElem?_cons_zero, Option.some.injEq] at hb
        subst hb
        rw [hdone (Nat.lt_succ_self k), foldl_proj_self hself, Int.toNat_natCast]
      · rw [show id - k = id - (k + 1) + 1 by omega, List.getElem?_cons_succ] at hb
        rw [hlater hlt hb, foldl_proj_of_ne hother hlt.ne]
    · intro hk
      rw [hdone (Nat.lt_succ_of_lt hk), foldl_proj_of_ne hother hk.ne']

theorem readsize_pos : 0 < readsize := by decide

/-- **What `extract_blocks` does for one size**, seen through the part of the state that belongs to it: `step` on
the blocks of the reads. -/
theorem extractBlocks_spec (check : ℕ → ℤ → σ → List UInt8 → σ) (proj : σ → τ) (step : τ → List UInt8 → τ)
    (hother : ∀ i size s block, i ≠ id → proj (check i size s block) = proj s)
    (hself : ∀ s block, proj (check id b s block) = step (proj s) block)
    (hpos : ∀ size ∈ sizesProc, 1 ≤ size) (hb : sizesProc[id]? = some (b : ℤ)) (content : List UInt8) (s : σ) :
    ∃ s', extractBlocks check sizesProc (some content) s = .ok s' ∧
      proj s' = (cutReads readsize readsize_pos b content).foldl step (proj s) := by
  have hloop : ∀ k off s, content.length - off = k → ∃ s', readLoop check sizesProc content off s = .ok s' ∧
      proj s' = (cutReads readsize readsize_pos b (content.drop off)).foldl step (proj s) := by
    intro k
    induction k using Nat.strong_induction_on with
    | _ k ih =>
      intro off s hk
      rw [readLoop]
      rcases Nat.lt_or_ge off content.length with hlt | hge
      · have hread : ((content.drop off).take readsize).length ≠ 0 := by
          rw [List.length_take, List.length_drop, readsize]
          omega
        obtain ⟨t, ht, hsize, -⟩ := sizesLoop_proj hother hself hpos ((content.drop off).take readsize) 0 s
        obtain ⟨s', hs', hproj'⟩ := ih (content.length - (off + readsize)) (by rw [readsize]; omega)
          (off + readsize) t rfl
        refine ⟨s', ?_, ?_⟩
        · rw [if_neg hread, bind_eq_ok]
          exact ⟨t, ht, hs'⟩
        · have hne : content.drop off ≠ [] := by
            rw [Ne, List.drop_eq_nil_iff]
            omega
          rw [cutReads_eq_append _ hne, List.foldl_append, List.drop_drop, hproj', hsize (Nat.zero_le _) hb]
      · have hnil : content.drop off = [] := List.drop_eq_nil_iff.mpr hge
        refine ⟨s, ?_, ?_⟩
        · rw [hnil, List.take_nil, List.length_nil, if_pos rfl]
        · rw [hnil, cutReads_nil, List.foldl_nil]
  obtain ⟨s', hs', hproj'⟩ := hloop _ 0 s rfl
  exact ⟨s', hs', hproj'⟩

/-! ### When a file is read to its end -/

theorem pos_of_chunkLoop {check : σ → List UInt8 → σ} {blockRead : List UInt8} {size : ℤ} {s s' : σ}
    (h : chunkLoop check blockRead size s = .ok s') : 1 ≤ size := by
  unfold chunkLoop at h
  split at h
  · cases h
  next hneg =>
  split at h
  · cases h
  next hzero => omega

/-- A file is read to its end if it is empty or every size is positive. -/
theorem extractBlocks_ok {file : Option (List UInt8)}
    (h : ∀ content, file = some content → content ≠ [] → ∀ size ∈ sizesProc, 1 ≤ size) (s : σ) :
    ∃ s', extractBlocks check sizesProc file s = .ok s' := by
  cases file with
  | none => exact ⟨s, rfl⟩
  | some content =>
    rcases eq_or_ne content [] with rfl | hne
    · exact ⟨s, by rw [extractBlocks, readLoop]; simp⟩
    · have hpos := h content rfl hne
      have hloop : ∀ off s, ∃ s', readLoop check sizesProc content off s = .ok s' := by
        intro off s
        induction off, s using readLoop.induct content with
        | case1 off s blockRead hread => exact ⟨s, by rw [readLoop, if_pos hread]⟩
        | case2 off s blockRead hread ih =>
          obtain ⟨t, ht, -⟩ := foldlM_ok (P := fun _ : σ => True) (l := sizesProc.zipIdx)
            (f := fun s size => chunkLoop (check size.2 size.1) ((content.drop off).take readsize) size.1 s)
            (fun s size hmem _ => ⟨_, chunkLoop_eq _ _ (hpos _ (List.fst_mem_of_mem_zipIdx hmem)) s, trivial⟩)
            (s := s) trivial
          obtain ⟨s', hs'⟩ := ih t
          exact ⟨s', by rw [readLoop, if_neg hread, bind_eq_ok]; exact ⟨t, ht, hs'⟩⟩
      exact hloop 0 s

/-- `exit` is not called for a file that `open` has returned from. -/
theorem extractBlocks_ne_exit (file : Option (List UInt8)) (s : σ) :
    extractBlocks check sizesProc file s ≠ .error .exit := by
  cases file with
  | none => simp [extractBlocks]
  | some content =>
    have hloop : ∀ off s, readLoop check sizesProc content off s ≠ .error .exit := by
      intro off s
      induction off, s using readLoop.induct content with
      | case1 off s blockRead hread => rw [readLoop, if_pos hread]; simp
      | case2 off s blockRead hread ih =>
        rw [readLoop, if_neg hread]
        cases hsizes : sizesLoop check sizesProc ((content.drop off).take readsize) s with
        | ok t =>
          rw [bind_ok]
          exact ih t
        | error e =>
          rw [bind_error, Ne, Except.error.injEq]
          rintro rfl
          obtain ⟨t, size, -, hfail⟩ := exists_of_foldlM_error hsizes
          unfold chunkLoop at hfail
          split at hfail
          · cases hfail
          · split at hfail <;> cases hfail
    exact hloop 0 s

end Loops

/-! ### The scan of a file -/

/-- A file scanned with `check_duplicates`, one entry of counters for each size. -/
def scanFile (sha1 : List UInt8 → Digest) (sizesProc : List ℤ) (file : Option (List UInt8)) (scans : List Scan) :
    Exec (List Scan) :=
  extractBlocks (fun id size scans block =>
    scans.modify id fun s => checkDuplicates sha1 (UInt64.ofInt size) s block) sizesProc file scans

theorem foldl_map_option {α β : Type} (f : α → β → α) (l : List β) (o : Option α) :
    l.foldl (fun o b => o.map fun a => f a b) o = o.map fun a => l.foldl f a := by
  induction l generalizing o with
  | nil => simp
  | cons b l ih => rw [List.foldl_cons, ih, Option.map_map]; rfl

/-- **The counters of a size count the blocks of the reads.** -/
theorem scanFile_getElem? (sha1 : List UInt8 → Digest) {sizesProc : List ℤ} (hpos : ∀ size ∈ sizesProc, 1 ≤ size)
    {id b : ℕ} (hb : sizesProc[id]? = some (b : ℤ)) (content : List UInt8) (scans : List Scan) :
    ∃ scans', scanFile sha1 sizesProc (some content) scans = .ok scans' ∧
      scans'[id]? = scans[id]?.map fun s =>
        scanBlocks sha1 (UInt64.ofInt b) s (cutReads readsize readsize_pos b content) := by
  obtain ⟨scans', hscans', heq⟩ := extractBlocks_spec
    (fun id size scans block => scans.modify id fun s => checkDuplicates sha1 (UInt64.ofInt size) s block)
    (fun scans => scans[id]?) (fun o block => o.map fun s => checkDuplicates sha1 (UInt64.ofInt b) s block)
    (fun i size scans block hi => List.getElem?_modify_ne _ _ hi)
    (fun scans block => List.getElem?_modify_eq _ _ _) hpos hb content scans
  exact ⟨scans', hscans', heq.trans (foldl_map_option _ _ _)⟩

/-! ### The blocks of one size -/

/-- The blocks that `extract_blocks` hands to `check_duplicates` for the size at position `id`. -/
def blocksPassed (sizesProc : List ℤ) (id : ℕ) (file : Option (List UInt8)) : Exec (List (List UInt8)) :=
  extractBlocks (fun i _ passed block => if i = id then passed ++ [block] else passed) sizesProc file []

theorem blocksPassed_eq {sizesProc : List ℤ} (hpos : ∀ size ∈ sizesProc, 1 ≤ size) {id b : ℕ}
    (hb : sizesProc[id]? = some (b : ℤ)) (content : List UInt8) :
    blocksPassed sizesProc id (some content) = .ok (cutReads readsize readsize_pos b content) := by
  obtain ⟨passed, hpassed, heq⟩ := extractBlocks_spec
    (fun i _ passed block => if i = id then passed ++ [block] else passed) (fun passed => passed)
    (fun passed block => passed ++ [block]) (fun _ _ _ _ hi => if_neg hi) (fun _ _ => if_pos rfl) hpos hb content []
  rw [blocksPassed, hpassed, heq, List.foldl_append_eq_append, List.nil_append, ← List.flatMap_def,
    List.flatMap_singleton']

/-- **The blocks are the file cut at the multiples of the size exactly when the size divides the size of a read, or
the first read holds all the blocks there are**; for every file of a length. -/
theorem blocks_cut_at_multiples_iff {sizesProc : List ℤ} (hpos : ∀ size ∈ sizesProc, 1 ≤ size) {id b : ℕ}
    (hb : sizesProc[id]? = some (b : ℤ)) (len : ℕ) :
    (∀ content : List UInt8, content.length = len → blocksPassed sizesProc id (some content) = .ok (cut b content)) ↔
      b ∣ readsize ∨ len / b ≤ readsize / b := by
  have hb1 : 0 < b := by
    have := hpos b (List.mem_of_getElem? hb)
    omega
  have : Nontrivial UInt8 := ⟨0, 1, by decide⟩
  apply Iff.trans _ (cutReads_eq_cut_iff (α := UInt8) readsize_pos hb1 len)
  apply forall₂_congr
  intro content _
  rw [blocksPassed_eq hpos hb, Except.ok.injEq]

/-- Blocks of 4096 bytes. -/
theorem defaultSize_cut : blocksPassed [4096] 0 (some (List.replicate (3 * readsize) 7)) =
    .ok (cut 4096 (List.replicate (3 * readsize) 7)) :=
  (blocks_cut_at_multiples_iff (b := 4096) (by decide) rfl (3 * readsize)).mpr (.inl (by decide)) _
    List.length_replicate

/-- Blocks of three bytes in a file three bytes longer than a read. -/
theorem threeBytes_not_cut :
    ∃ content : List UInt8, content.length = readsize + 3 ∧
      blocksPassed [3] 0 (some content) ≠ .ok (cut 3 content) := by
  refine ⟨(List.replicate (readsize + 3) 0).set (readsize / 3 * 3) 1, ?_, ?_⟩
  · rw [List.length_set, List.length_replicate]
  · rw [blocksPassed_eq (b := 3) (by decide) rfl, Ne, Except.ok.injEq]
    exact cutReads_ne_cut readsize_pos (by decide) (by decide) (by decide) (by decide)

end Dedisbench
