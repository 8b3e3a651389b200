import Dedisbench.Scan.Counters

/-!
# Merging duplicates databases

`merge_dbs` adds the records of one database to another, so a merge is the sum of the two
(`MergeSums`), and the merge of two scans is the scan of both (`merge_scans`).  Counts are
`uint64_t`s and add as such.
-/

namespace Dedisbench

open Tally

/-! ### A merge -/

theorem mergeStep_of_mem {s : Merge} {data : List UInt8 × UInt64} (h : data.1 ∈ s.dbBase) :
    mergeStep s data = { s with matched := s.matched + 1, dbBase := add s.dbBase data.1 data.2 } := by
  have hsome := lookup_of_mem h
  simp only [mergeStep, add, getDb, dbGet, hsome]
  rfl

theorem mergeStep_of_notMem {s : Merge} {data : List UInt8 × UInt64} (h : data.1 ∉ s.dbBase) :
    mergeStep s data = { s with notmatched := s.notmatched + 1, dbBase := add s.dbBase data.1 data.2 } := by
  have hnone := Finmap.lookup_eq_none.mpr h
  simp only [mergeStep, add, getDb, dbGet, hnone]
  rfl

/-- The state after a merge: the records are added to the base, and counted by whether the base had
their key before. -/
theorem mergeDbs_eq {recs : List (List UInt8 × UInt64)} (hnodup : (recs.map Prod.fst).Nodup) (s : Merge) :
    mergeDbs recs s =
      { dbMerge := s.dbMerge
        dbBase := addAll s.dbBase recs
        matched := s.matched + .ofNat (recs.countP fun r => r.1 ∈ s.dbBase)
        notmatched := s.notmatched + .ofNat (recs.countP fun r => r.1 ∉ s.dbBase) } := by
  induction recs generalizing s with
  | nil => simp [mergeDbs, addAll]
  | cons r recs ih =>
    rw [List.map_cons, List.nodup_cons] at hnodup
    -- the keys still to come are other keys, so the round does not decide about them
    have hlater : ∀ r' ∈ recs, (r'.1 ∈ add s.dbBase r.1 r.2 ↔ r'.1 ∈ s.dbBase) := by
      intro r' hr'
      rw [mem_add, or_iff_right]
      rintro heq
      exact hnodup.1 (heq ▸ List.mem_map_of_mem hr')
    have hmatched : recs.countP (fun r' => r'.1 ∈ add s.dbBase r.1 r.2) = recs.countP fun r' => r'.1 ∈ s.dbBase := by
      apply List.countP_congr
      intro r' hr'
      rw [decide_eq_true_iff, decide_eq_true_iff, hlater r' hr']
    have hnotmatched :
        recs.countP (fun r' => r'.1 ∉ add s.dbBase r.1 r.2) = recs.countP fun r' => r'.1 ∉ s.dbBase := by
      apply List.countP_congr
      intro r' hr'
      rw [decide_eq_true_iff, decide_eq_true_iff, hlater r' hr']
    rw [mergeDbs, List.foldl_cons, ← mergeDbs, addAll, List.foldl_cons, ← addAll]
    by_cases hr : r.1 ∈ s.dbBase
    · rw [mergeStep_of_mem hr, ih hnodup.2]
      simp only [hmatched, hnotmatched, List.countP_cons, hr, decide_true, not_true_eq_false, decide_false, if_true,
        Bool.false_eq_true, if_false, Nat.add_zero, ofNat_succ, UInt64.add_assoc, UInt64.add_comm 1]
    · rw [mergeStep_of_notMem hr, ih hnodup.2]
      simp only [hmatched, hnotmatched, List.countP_cons, hr, decide_true, not_false_eq_true, decide_false, if_true,
        Bool.false_eq_true, if_false, Nat.add_zero, ofNat_succ, UInt64.add_assoc, UInt64.add_comm 1]

/-- What a merge of `m` into `b` leaves behind: the merged database as it was, the sum of both as the base, and how
many keys of `m` were keys of `b`. -/
structure MergeSums (m b : DuplicateDb) (s : Merge) : Prop where
  dbMerge : s.dbMerge = m
  keys : ∀ k, k ∈ s.dbBase ↔ k ∈ m ∨ k ∈ b
  counts : ∀ k, valueAt s.dbBase k = valueAt m k + valueAt b k
  matched : s.matched = .ofNat (m.keys ∩ b.keys).card
  notmatched : s.notmatched = .ofNat (m.keys \ b.keys).card

theorem mergeSums {m b : DuplicateDb} {recs : List (List UInt8 × UInt64)} (h : Visits m recs) :
    MergeSums m b (mergeDbs recs ⟨m, b, 0, 0⟩) := by
  rw [mergeDbs_eq h.nodup_keys]
  refine ⟨rfl, fun k => ?_, fun k => ?_, ?_, ?_⟩
  · exact (mem_merge h).trans or_comm
  · exact (valueAt_merge h k).trans (UInt64.add_comm _ _)
  · simp only [UInt64.zero_add, h.countP_keys fun k => k ∈ b]
    simp only [← Finmap.mem_keys, Finset.filter_mem_eq_inter]
  · simp only [UInt64.zero_add, h.countP_keys fun k => k ∉ b]
    simp only [← Finmap.mem_keys, Finset.sdiff_eq_filter]

/-! ### Merging scans -/

/-- The database a scan leaves. -/
def scanDb (sha1 : List UInt8 → Digest) (bsize : UInt64) (blocks : List (List UInt8)) : DuplicateDb :=
  (scanBlocks sha1 bsize .init blocks).db

section Scans

variable {sha1 : List UInt8 → Digest} {bsize : UInt64} {s₁ s₂ : List (List UInt8)}
  {recs recs' : List (List UInt8 × UInt64)}

/-- **The merge of two scans is the scan of both.** -/
theorem merge_scans (h : Visits (scanDb sha1 bsize s₁) recs) (n n' : UInt64) :
    (mergeDbs recs ⟨scanDb sha1 bsize s₁, scanDb sha1 bsize s₂, n, n'⟩).dbBase = scanDb sha1 bsize (s₁ ++ s₂) := by
  have hkeys : keysOf sha1 (s₁ ++ s₂) = keysOf sha1 s₁ ++ keysOf sha1 s₂ := List.map_append
  have htally : ∀ s, scanDb sha1 bsize s = tally UInt64 (keysOf sha1 s) := scanBlocks_db sha1 bsize
  rw [mergeDbs_eq h.nodup_keys]
  rw [htally] at h
  simp only [htally, hkeys]
  exact addAll_tally h

theorem scanDb_append_comm : scanDb sha1 bsize (s₂ ++ s₁) = scanDb sha1 bsize (s₁ ++ s₂) := by
  rw [scanDb, scanDb, scanBlocks_db, scanBlocks_db]
  exact tally_perm (List.perm_append_comm.map _)

/-- The distribution does not depend on the order of the cursor. -/
theorem genOutput_perm (h : recs.Perm recs') : genOutput recs ∅ = genOutput recs' ∅ := by
  rw [genOutput_eq, genOutput_eq]
  exact tally_perm (h.map _)

end Scans

/-- **Merging is a homomorphism.**  A merge is the pointwise sum; and the merge of the databases of two scans gives
the distribution of one scan over both sequences of blocks, whichever is merged into which and whatever the order of
the cursors (`recs` over the merged database, `dist` over the result, `all` over the database of the one scan). -/
theorem merge_homomorphism (sha1 : List UInt8 → Digest) (bsize : UInt64) :
    (∀ m b recs, Visits m recs → MergeSums m b (mergeDbs recs ⟨m, b, 0, 0⟩)) ∧
    ∀ s₁ s₂ all, Visits (scanDb sha1 bsize (s₁ ++ s₂)) all →
      (∀ recs dist, Visits (scanDb sha1 bsize s₁) recs →
        Visits (mergeDbs recs ⟨scanDb sha1 bsize s₁, scanDb sha1 bsize s₂, 0, 0⟩).dbBase dist →
        genOutput dist ∅ = genOutput all ∅) ∧
      ∀ recs dist, Visits (scanDb sha1 bsize s₂) recs →
        Visits (mergeDbs recs ⟨scanDb sha1 bsize s₂, scanDb sha1 bsize s₁, 0, 0⟩).dbBase dist →
        genOutput dist ∅ = genOutput all ∅ := by
  refine ⟨fun m b recs h => mergeSums h, fun s₁ s₂ all hall => ⟨?_, ?_⟩⟩
  · intro recs dist hrecs hdist
    rw [merge_scans hrecs] at hdist
    exact genOutput_perm (hdist.perm hall)
  · intro recs dist hrecs hdist
    rw [merge_scans hrecs, scanDb_append_comm] at hdist
    exact genOutput_perm (hdist.perm hall)

/-- The key of a block of one byte, under the stand-in for a digest. -/
def byteKey (b : UInt8) : List UInt8 := visual (firstBytes [b])

/-- A merge with one digest in both databases, and the scans of `7` and of `8, 7` merged both ways. -/
theorem twoDigests_merge :
    MergeSums ((∅ : DuplicateDb).insert [97] 2 |>.insert [98] 1) ((∅ : DuplicateDb).insert [97] 3)
      (mergeDbs [([98], 1), ([97], 2)]
        ⟨(∅ : DuplicateDb).insert [97] 2 |>.insert [98] 1, (∅ : DuplicateDb).insert [97] 3, 0, 0⟩) ∧
    genOutput [(byteKey 8, 1), (byteKey 7, 2)] ∅ = genOutput [(byteKey 7, 2), (byteKey 8, 1)] ∅ ∧
    genOutput [(byteKey 7, 2), (byteKey 8, 1)] ∅ = genOutput [(byteKey 7, 2), (byteKey 8, 1)] ∅ := by
  obtain ⟨hsum, hscans⟩ := merge_homomorphism firstBytes 1
  have hall : Visits (scanDb firstBytes 1 ([[7]] ++ [[8], [7]])) [(byteKey 7, 2), (byteKey 8, 1)] :=
    visits_of_entries (by decide +kernel)
  obtain ⟨hinto, honto⟩ := hscans [[7]] [[8], [7]] _ hall
  refine ⟨hsum _ _ _ (visits_of_entries (by decide)), ?_, ?_⟩
  · exact hinto [(byteKey 7, 1)] _ (visits_of_entries (by decide +kernel)) (visits_of_entries (by decide +kernel))
  · exact honto [(byteKey 8, 1), (byteKey 7, 1)] _ (visits_of_entries (by decide +kernel))
      (visits_of_entries (by decide +kernel))

end Dedisbench
