import Dedisbench.Scan.Defs

/-!
# What the counters of a scan count

`check_duplicates` keeps the tally of the digests it has seen: the database is the tally
(`Counted.db`), and the five counters are sums over it, as long as none of them has wrapped.  The
distribution `gen_output` makes of the database counts, for each number of copies, the digests that
have that many, whatever the order of the cursor.
-/

namespace Dedisbench

open Tally

/-! ### Counters -/

theorem ofNat_succ (n : ℕ) : UInt64.ofNat (n + 1) = UInt64.ofNat n + 1 := by
  rw [UInt64.ofNat_add]
  rfl

theorem nsmul_one (n : ℕ) : n • (1 : UInt64) = .ofNat n := by
  induction n with
  | zero => simp
  | succ n ih => rw [succ_nsmul, ih, ofNat_succ]

theorem toNat_ofNat {n : ℕ} (h : n < 2 ^ 64) : (UInt64.ofNat n).toNat = n := UInt64.toNat_ofNat_of_lt' h

section Tally

variable {K : Type} [DecidableEq K] [BEq K] [LawfulBEq K]

theorem valueAt_tally_uint64 (keys : List K) (k : K) : valueAt (tally UInt64 keys) k = .ofNat (keys.count k) :=
  (valueAt_tally keys k).trans (nsmul_one _)

theorem toNat_valueAt_tally {keys : List K} (h : keys.length < 2 ^ 64) (k : K) :
    (valueAt (tally UInt64 keys) k).toNat = keys.count k := by
  rw [valueAt_tally_uint64, toNat_ofNat (lt_of_le_of_lt List.count_le_length h)]

end Tally

/-! ### The string of a digest -/

theorem toNat_low (b : UInt8) : (b &&& 0x0f).toNat = b.toNat % 16 := by
  rw [UInt8.toNat_and]
  exact Nat.and_two_pow_sub_one_eq_mod b.toNat 4

theorem toNat_high (b : UInt8) : ((b &&& 0xf0) >>> 4).toNat = b.toNat / 16 := by
  have hb := b.toNat_lt
  have hshift : (b.toNat &&& 240) >>> 4 = (b.toNat >>> 4) &&& 15 := Nat.shiftRight_and_distrib
  have hmask : (b.toNat >>> 4) &&& 15 = b.toNat / 16 % 16 := by
    rw [Nat.shiftRight_eq_div_pow]
    exact Nat.and_two_pow_sub_one_eq_mod (b.toNat / 16) 4
  rw [UInt8.toNat_shiftRight, UInt8.toNat_and]
  exact (hshift.trans hmask).trans (Nat.mod_eq_of_lt (by omega))

theorem letters_injective : Function.Injective letters := by
  intro b b' h
  simp only [letters, List.cons.injEq, and_true] at h
  have hlow := congrArg UInt8.toNat ((UInt8.add_left_inj 97).mp h.1)
  have hhigh := congrArg UInt8.toNat ((UInt8.add_left_inj 97).mp h.2)
  rw [toNat_low, toNat_low] at hlow
  rw [toNat_high, toNat_high] at hhigh
  apply UInt8.toNat_inj.mp
  omega

theorem flatMap_letters_injective : Function.Injective fun l : List UInt8 => l.flatMap letters := by
  intro l
  induction l with
  | nil =>
    intro l' h
    cases l' with
    | nil => rfl
    | cons b' l' => simp [letters] at h
  | cons b l ih =>
    intro l' h
    cases l' with
    | nil => simp [letters] at h
    | cons b' l' =>
      simp only [List.flatMap_cons] at h
      obtain ⟨hb, hl⟩ := List.append_inj h rfl
      rw [letters_injective hb, ih hl]

theorem visual_injective : Function.Injective visual := by
  intro d d' h
  exact Subtype.ext (flatMap_letters_injective (List.append_cancel_right h))

/-! ### One block -/

section Step

variable {sha1 : List UInt8 → Digest} {bsize : UInt64} {s : Scan} {block : List UInt8}

theorem checkDuplicates_of_notMem (h : visual (sha1 block) ∉ s.db) :
    checkDuplicates sha1 bsize s block =
      { s with
        totalBlocks := s.totalBlocks + 1
        dif := s.dif + 1
        db := add s.db (visual (sha1 block)) 1 } := by
  have hnone := Finmap.lookup_eq_none.mpr h
  simp only [checkDuplicates, add, getDb, dbGet, hnone]
  rfl

theorem checkDuplicates_of_mem (h : visual (sha1 block) ∈ s.db) :
    checkDuplicates sha1 bsize s block =
      { s with
        totalBlocks := s.totalBlocks + 1
        distinctdup := if valueAt s.db (visual (sha1 block)) = 1 then s.distinctdup + 1 else s.distinctdup
        eq := s.eq + 1
        space := s.space + bsize
        db := add s.db (visual (sha1 block)) 1 } := by
  have hsome := lookup_of_mem h
  simp only [checkDuplicates, add, getDb, dbGet, hsome]
  rfl

theorem checkDuplicates_db : (checkDuplicates sha1 bsize s block).db = add s.db (visual (sha1 block)) 1 := by
  by_cases h : visual (sha1 block) ∈ s.db
  · rw [checkDuplicates_of_mem h]
  · rw [checkDuplicates_of_notMem h]

end Step

/-! ### A scan -/

/-- The keys of a sequence of blocks. -/
def keysOf (sha1 : List UInt8 → Digest) (blocks : List (List UInt8)) : List (List UInt8) :=
  blocks.map fun block => visual (sha1 block)

/-- **The database is the tally of the digests**, wrapped or not. -/
theorem scanBlocks_db (sha1 : List UInt8 → Digest) (bsize : UInt64) (blocks : List (List UInt8)) :
    (scanBlocks sha1 bsize .init blocks).db = tally UInt64 (keysOf sha1 blocks) := by
  induction blocks using List.reverseRecOn with
  | nil => rfl
  | append_singleton blocks block ih =>
    rw [scanBlocks, List.foldl_concat, ← scanBlocks, checkDuplicates_db, ih, keysOf, keysOf, List.map_append,
      List.map_singleton, tally_concat]

/-- The keys that occur more than once. -/
def dupKeys (keys : List (List UInt8)) : Finset (List UInt8) := keys.toFinset.filter fun k => 2 ≤ keys.count k

theorem toFinset_concat (keys : List (List UInt8)) (k : List UInt8) :
    (keys ++ [k]).toFinset = insert k keys.toFinset := by
  ext a
  simp

theorem dupKeys_concat_of_count_ne {keys : List (List UInt8)} {k : List UInt8} (h : keys.count k ≠ 1) :
    dupKeys (keys ++ [k]) = dupKeys keys := by
  ext a
  simp only [dupKeys, toFinset_concat, Finset.mem_filter, Finset.mem_insert, List.count_append, List.count_singleton]
  rcases eq_or_ne a k with rfl | ha
  · simp only [true_or, true_and, BEq.rfl, if_true, List.mem_toFinset, ← List.count_pos_iff]
    omega
  · simp [ha, ha.symm]

theorem dupKeys_concat_of_count_eq {keys : List (List UInt8)} {k : List UInt8} (h : keys.count k = 1) :
    (dupKeys (keys ++ [k])).card = (dupKeys keys).card + 1 := by
  have hk : k ∉ dupKeys keys := by
    rw [dupKeys, Finset.mem_filter]
    omega
  rw [← Finset.card_insert_of_notMem hk]
  congr 1
  ext a
  simp only [dupKeys, toFinset_concat, Finset.mem_filter, Finset.mem_insert, List.count_append, List.count_singleton]
  rcases eq_or_ne a k with rfl | ha
  · simp [h]
  · simp [ha, ha.symm]

/-- What the counters of a scan hold, `keys` being the keys of the blocks so far. -/
structure Counted (bsize : UInt64) (keys : List (List UInt8)) (s : Scan) : Prop where
  db : s.db = tally UInt64 keys
  totalBlocks : s.totalBlocks = .ofNat keys.length
  dif : s.dif = .ofNat keys.toFinset.card
  eq : s.totalBlocks = s.dif + s.eq
  space : s.space = s.eq * bsize
  distinctdup : s.distinctdup = .ofNat (dupKeys keys).card

theorem Counted.init (bsize : UInt64) : Counted bsize [] .init where
  db := rfl
  totalBlocks := rfl
  dif := rfl
  eq := rfl
  space := (UInt64.zero_mul).symm
  distinctdup := rfl

section Step

variable {sha1 : List UInt8 → Digest} {bsize : UInt64} {s : Scan} {keys : List (List UInt8)}

/-- One more block, as long as no count has wrapped. -/
theorem Counted.step (h : Counted bsize keys s) (hlen : keys.length < 2 ^ 64) (block : List UInt8) :
    Counted bsize (keys ++ [visual (sha1 block)]) (checkDuplicates sha1 bsize s block) := by
  set k := visual (sha1 block) with hk
  have hdb : (checkDuplicates sha1 bsize s block).db = tally UInt64 (keys ++ [k]) := by
    rw [checkDuplicates_db, h.db, tally_concat]
  have hmem : k ∈ s.db ↔ k ∈ keys := by rw [h.db, mem_tally]
  by_cases hkeys : k ∈ keys
  · -- a digest seen before: one more copy
    have hcount : valueAt s.db k = 1 ↔ keys.count k = 1 := by
      rw [h.db, ← UInt64.toNat_inj, toNat_valueAt_tally hlen]
      rfl
    rw [checkDuplicates_of_mem (hmem.mpr hkeys)] at hdb ⊢
    refine ⟨hdb, ?_, ?_, ?_, ?_, ?_⟩
    · simp only [h.totalBlocks, List.length_append, List.length_singleton, ofNat_succ]
    · simp only [h.dif, toFinset_concat, Finset.insert_eq_of_mem (List.mem_toFinset.mpr hkeys)]
    · simp only [h.eq, UInt64.add_assoc]
    · simp only [h.space, UInt64.add_mul, UInt64.one_mul]
    · by_cases hone : keys.count k = 1
      · simp only [← hk, hcount.mpr hone, if_true, h.distinctdup, dupKeys_concat_of_count_eq hone, ofNat_succ]
      · simp only [← hk, mt hcount.mp hone, if_false, h.distinctdup, dupKeys_concat_of_count_ne hone]
  · -- a new digest
    have hzero : keys.count k ≠ 1 := by
      rw [List.count_eq_zero.mpr hkeys]
      exact zero_ne_one
    rw [checkDuplicates_of_notMem (mt hmem.mp hkeys)] at hdb ⊢
    refine ⟨hdb, ?_, ?_, ?_, h.space, ?_⟩
    · simp only [h.totalBlocks, List.length_append, List.length_singleton, ofNat_succ]
    · simp only [h.dif, toFinset_concat, Finset.card_insert_of_notMem (mt List.mem_toFinset.mp hkeys), ofNat_succ]
    · simp only [h.eq, UInt64.add_assoc, UInt64.add_comm s.eq 1]
    · simp only [h.distinctdup, dupKeys_concat_of_count_ne hzero]

/-- The counters of a whole scan. -/
theorem Counted.scan (sha1 : List UInt8 → Digest) (bsize : UInt64) {blocks : List (List UInt8)}
    (hlen : blocks.length ≤ 2 ^ 64) :
    Counted bsize (keysOf sha1 blocks) (scanBlocks sha1 bsize .init blocks) := by
  induction blocks using List.reverseRecOn with
  | nil => exact Counted.init bsize
  | append_singleton blocks block ih =>
    rw [List.length_append, List.length_singleton] at hlen
    rw [scanBlocks, List.foldl_concat, ← scanBlocks, keysOf, List.map_append, List.map_singleton]
    apply (ih (by omega)).step
    rw [keysOf, List.length_map]
    omega

end Step

/-! ### The distribution -/

theorem genOutputStep_eq (dbprint : PrintDb) (data : List UInt8 × UInt64) :
    genOutputStep dbprint data = add dbprint (data.2 - 1) 1 := by
  simp only [genOutputStep, add, getDbPrint, dbGet]
  cases Finmap.lookup (data.2 - 1) dbprint <;> rfl

/-- `gen_output` tallies the counts of the records, less one. -/
theorem genOutput_eq (recs : List (List UInt8 × UInt64)) :
    genOutput recs ∅ = tally UInt64 (recs.map fun r => r.2 - 1) := by
  rw [tally, addAll, List.map_map, List.foldl_map, genOutput]
  congr 1
  funext dbprint data
  exact genOutputStep_eq dbprint data

section Output

variable {db : DuplicateDb} {recs : List (List UInt8 × UInt64)}

/-- **A distribution counts, for each number of duplicates, the digests that have it.** -/
theorem toNat_genOutput (h : Visits db recs) (hcard : db.keys.card < 2 ^ 64) (x : UInt64) :
    (valueAt (genOutput recs ∅) x).toNat = (db.keys.filter fun k => valueAt db k - 1 = x).card := by
  rw [genOutput_eq, toNat_valueAt_tally, h.count_map fun v => v - 1]
  rwa [List.length_map, h.length]

/-- A sum over a distribution is a sum over the database it was made of. -/
theorem sum_genOutput (h : Visits db recs) (hcard : db.keys.card < 2 ^ 64) (p : UInt64 → Prop) [DecidablePred p]
    (w : UInt64 → ℕ) :
    ∑ x ∈ (genOutput recs ∅).keys.filter p, w x * (valueAt (genOutput recs ∅) x).toNat =
      ∑ k ∈ db.keys.filter (fun k => p (valueAt db k - 1)), w (valueAt db k - 1) := by
  have hmaps : ∀ k ∈ db.keys.filter (fun k => p (valueAt db k - 1)),
      valueAt db k - 1 ∈ (genOutput recs ∅).keys.filter p := by
    intro k hk
    rw [Finset.mem_filter] at hk ⊢
    refine ⟨?_, hk.2⟩
    rw [genOutput_eq, Finmap.mem_keys, h.mem_tally (fun v => v - 1)]
    exact ⟨k, hk.1, rfl⟩
  rw [← Finset.sum_fiberwise_of_maps_to' hmaps]
  apply Finset.sum_congr rfl
  intro x hx
  rw [Finset.sum_const_nat fun _ _ => rfl, mul_comm, toNat_genOutput h hcard, Finset.filter_filter]
  congr 2
  apply Finset.filter_congr
  intro k _
  constructor
  · rintro rfl
    exact ⟨(Finset.mem_filter.mp hx).2, rfl⟩
  · exact fun hk => hk.2

end Output

/-! ### Counters, database and distribution agree -/

/-- The counters and the database of a scan say the same as the blocks. -/
structure ScanAgrees (sha1 : List UInt8 → Digest) (bsize : UInt64) (blocks : List (List UInt8)) (s : Scan) :
    Prop where
  occurrences : ∀ d, (getDb s.db (visual d)).map UInt64.toNat =
    if d ∈ blocks.map sha1 then some ((blocks.map sha1).count d) else none
  keys : ∀ key ∈ s.db, ∃ block ∈ blocks, key = visual (sha1 block)
  totalBlocks : s.totalBlocks.toNat = s.dif.toNat + s.eq.toNat
  dif : s.dif.toNat = s.db.keys.card
  distinctdup : s.distinctdup.toNat = (s.db.keys.filter fun k => 2 ≤ (valueAt s.db k).toNat).card
  space : s.space = s.eq * bsize

/-- The distribution says the same as the digests and the counters. -/
structure OutputAgrees (digests : List Digest) (s : Scan) (dist : PrintDb) : Prop where
  counts : ∀ k, (valueAt dist k).toNat =
    (digests.toFinset.filter fun d => digests.count d = k.toNat + 1).card
  zerodups : valueAt dist 0 = s.zerodups
  distinctdup : ∑ k ∈ dist.keys.filter (· ≠ 0), (valueAt dist k).toNat = s.distinctdup.toNat
  totalBlocks : ∑ k ∈ dist.keys, (k.toNat + 1) * (valueAt dist k).toNat = s.totalBlocks.toNat

section Agree

variable {sha1 : List UInt8 → Digest} {bsize : UInt64} {blocks : List (List UInt8)} {s : Scan}

theorem keysOf_eq_map (sha1 : List UInt8 → Digest) (blocks : List (List UInt8)) :
    keysOf sha1 blocks = (blocks.map sha1).map visual := by
  rw [keysOf, List.map_map]
  rfl

theorem count_keysOf (d : Digest) : (keysOf sha1 blocks).count (visual d) = (blocks.map sha1).count d := by
  rw [keysOf_eq_map, List.count_map_of_injective _ _ visual_injective]

theorem visual_mem_keysOf {d : Digest} : visual d ∈ keysOf sha1 blocks ↔ d ∈ blocks.map sha1 := by
  rw [keysOf_eq_map, List.mem_map_of_injective visual_injective]

variable (h : Counted bsize (keysOf sha1 blocks) s) (hlen : blocks.length < 2 ^ 64)
include h

theorem Counted.keys_db : s.db.keys = (keysOf sha1 blocks).toFinset := by rw [h.db, keys_tally]

include hlen

theorem Counted.toNat_valueAt (k : List UInt8) : (valueAt s.db k).toNat = (keysOf sha1 blocks).count k := by
  rw [h.db]
  apply toNat_valueAt_tally
  rwa [keysOf, List.length_map]

theorem Counted.card_keys_lt : s.db.keys.card < 2 ^ 64 := by
  rw [h.keys_db]
  apply lt_of_le_of_lt (List.toFinset_card_le _)
  rwa [keysOf, List.length_map]

theorem Counted.toNat_totalBlocks : s.totalBlocks.toNat = blocks.length := by
  rw [h.totalBlocks, keysOf, List.length_map, toNat_ofNat hlen]

theorem Counted.toNat_dif : s.dif.toNat = s.db.keys.card := by
  rw [h.dif, h.keys_db, toNat_ofNat]
  exact h.keys_db ▸ h.card_keys_lt hlen

theorem Counted.toNat_distinctdup :
    s.distinctdup.toNat = (s.db.keys.filter fun k => 2 ≤ (valueAt s.db k).toNat).card := by
  have hsame : s.db.keys.filter (fun k => 2 ≤ (valueAt s.db k).toNat) = dupKeys (keysOf sha1 blocks) := by
    rw [h.keys_db, dupKeys]
    apply Finset.filter_congr
    intro k _
    rw [h.toNat_valueAt hlen]
  rw [hsame, h.distinctdup, toNat_ofNat]
  apply lt_of_le_of_lt (Finset.card_filter_le _ _)
  exact h.keys_db ▸ h.card_keys_lt hlen

/-- A key of the database has a count of at least one. -/
theorem Counted.one_le (k : List UInt8) (hk : k ∈ s.db.keys) : 1 ≤ (valueAt s.db k).toNat := by
  rw [h.toNat_valueAt hlen, Nat.one_le_iff_ne_zero, ← Nat.pos_iff_ne_zero, List.count_pos_iff]
  rwa [h.keys_db, List.mem_toFinset] at hk

/-- The number of duplicates of a key of the database, as `gen_output` computes it. -/
theorem Counted.toNat_ndups (k : List UInt8) (hk : k ∈ s.db.keys) :
    (valueAt s.db k - 1).toNat = (valueAt s.db k).toNat - 1 := by
  apply UInt64.toNat_sub_of_le
  exact UInt64.le_iff_toNat_le.mpr (h.one_le hlen k hk)

theorem Counted.scanAgrees : ScanAgrees sha1 bsize blocks s where
  occurrences d := by
    have hlookup : getDb s.db (visual d) =
        if visual d ∈ keysOf sha1 blocks then some (valueAt s.db (visual d)) else none := by
      split
      next hd => exact lookup_of_mem (by rw [h.db]; exact mem_tally.mpr hd)
      next hd => exact Finmap.lookup_eq_none.mpr (by rw [h.db]; exact mt mem_tally.mp hd)
    rw [hlookup, apply_ite (Option.map UInt64.toNat), Option.map_some, Option.map_none, h.toNat_valueAt hlen,
      count_keysOf]
    simp only [visual_mem_keysOf]
  keys key hkey := by
    rw [h.db, mem_tally, keysOf, List.mem_map] at hkey
    rcases hkey with ⟨block, hblock, rfl⟩
    exact ⟨block, hblock, rfl⟩
  totalBlocks := by
    have heq : s.eq = s.totalBlocks - s.dif := by
      rw [h.eq, UInt64.add_comm, UInt64.add_sub_cancel]
    have hle : s.dif.toNat ≤ s.totalBlocks.toNat := by
      rw [h.toNat_dif hlen, h.toNat_totalBlocks hlen, h.keys_db, ← List.length_map (fun b => visual (sha1 b))]
      exact List.toFinset_card_le _
    rw [heq, UInt64.toNat_sub_of_le _ _ (UInt64.le_iff_toNat_le.mpr hle)]
    omega
  dif := h.toNat_dif hlen
  distinctdup := h.toNat_distinctdup hlen
  space := h.space

variable {recs : List (List UInt8 × UInt64)}

/-- The digests with a given number of duplicates, among the keys and among the digests. -/
theorem Counted.card_filter (k : UInt64) :
    (s.db.keys.filter fun key => valueAt s.db key - 1 = k).card =
      ((blocks.map sha1).toFinset.filter fun d => (blocks.map sha1).count d = k.toNat + 1).card := by
  rw [← Finset.card_image_of_injective _ visual_injective]
  congr 1
  ext key
  rw [Finset.mem_filter, Finset.mem_image]
  have hcount : key ∈ s.db.keys → (valueAt s.db key - 1 = k ↔ (keysOf sha1 blocks).count key = k.toNat + 1) := by
    intro hkey
    have := h.one_le hlen key hkey
    rw [← UInt64.toNat_inj, h.toNat_ndups hlen key hkey, ← h.toNat_valueAt hlen]
    omega
  constructor
  · rintro ⟨hkey, hk⟩
    have hk := (hcount hkey).mp hk
    rw [h.keys_db, keysOf_eq_map, List.mem_toFinset, List.mem_map] at hkey
    rcases hkey with ⟨d, hd, rfl⟩
    rw [count_keysOf] at hk
    exact ⟨d, Finset.mem_filter.mpr ⟨List.mem_toFinset.mpr hd, hk⟩, rfl⟩
  · rintro ⟨d, hd, rfl⟩
    rw [Finset.mem_filter, List.mem_toFinset] at hd
    have hkey : visual d ∈ s.db.keys := by
      rw [h.keys_db, List.mem_toFinset]
      exact visual_mem_keysOf.mpr hd.1
    exact ⟨hkey, (hcount hkey).mpr ((count_keysOf d).trans hd.2)⟩

theorem Counted.outputAgrees (hrecs : Visits s.db recs) :
    OutputAgrees (blocks.map sha1) s (genOutput recs ∅) := by
  have hcard := h.card_keys_lt hlen
  have hdups : ∀ k ∈ s.db.keys, (valueAt s.db k - 1 ≠ 0 ↔ 2 ≤ (valueAt s.db k).toNat) := by
    intro k hk
    have := h.one_le hlen k hk
    rw [Ne, ← UInt64.toNat_inj, h.toNat_ndups hlen k hk, UInt64.toNat_zero]
    omega
  -- the keys with one copy and those with more are all the keys
  have hsplit : (s.db.keys.filter fun k => valueAt s.db k - 1 = 0).card +
      (s.db.keys.filter fun k => 2 ≤ (valueAt s.db k).toNat).card = s.db.keys.card := by
    rw [← Finset.filter_congr hdups]
    exact Finset.card_filter_add_card_filter_not _
  refine ⟨?_, ?_, ?_, ?_⟩
  · intro k
    rw [toNat_genOutput hrecs hcard, h.card_filter hlen]
  · have hle : s.distinctdup.toNat ≤ s.dif.toNat := by
      rw [h.toNat_dif hlen, h.toNat_distinctdup hlen]
      exact Finset.card_filter_le _ _
    apply UInt64.toNat_inj.mp
    rw [toNat_genOutput hrecs hcard, Scan.zerodups, UInt64.toNat_sub_of_le _ _ (UInt64.le_iff_toNat_le.mpr hle),
      h.toNat_dif hlen, h.toNat_distinctdup hlen]
    omega
  · have hsum := sum_genOutput hrecs hcard (· ≠ 0) fun _ => 1
    simp only [one_mul] at hsum
    rw [hsum, h.toNat_distinctdup hlen, ← Finset.card_eq_sum_ones, Finset.filter_congr hdups]
  · have hsum := sum_genOutput hrecs hcard (fun _ => True) fun x => x.toNat + 1
    simp only [Finset.filter_true] at hsum
    have hlength : blocks.length = ∑ k ∈ s.db.keys, (keysOf sha1 blocks).count k := by
      rw [h.keys_db, sum_count, keysOf, List.length_map]
    rw [hsum, h.toNat_totalBlocks hlen, hlength]
    apply Finset.sum_congr rfl
    intro k hk
    rw [h.toNat_ndups hlen k hk, Nat.sub_add_cancel (h.one_le hlen k hk), h.toNat_valueAt hlen]

end Agree

/-- **Counters, database and distribution of a scan agree.**  The digests are kept apart by their strings; the
database holds the number of occurrences of each, the counters are its sums, and `gen_output` makes of it the
distribution the counters report, whatever the order of its cursor.  No counter may have wrapped. -/
theorem scan_counts_occurrences (sha1 : List UInt8 → Digest) (bsize : UInt64) (blocks : List (List UInt8))
    (hlen : blocks.length < 2 ^ 64) :
    Function.Injective visual ∧ ScanAgrees sha1 bsize blocks (scanBlocks sha1 bsize .init blocks) ∧
      ∀ recs, Visits (scanBlocks sha1 bsize .init blocks).db recs →
        OutputAgrees (blocks.map sha1) (scanBlocks sha1 bsize .init blocks) (genOutput recs ∅) := by
  have h := Counted.scan sha1 bsize hlen.le
  exact ⟨visual_injective, h.scanAgrees hlen, fun recs hrecs => h.outputAgrees hlen hrecs⟩

/-- A stand-in for a digest: the first twenty bytes. -/
def firstBytes (block : List UInt8) : Digest := ⟨(block ++ List.replicate 20 0).take 20, by simp⟩

theorem threeBlocks_counts :
    Function.Injective visual ∧
      ScanAgrees firstBytes 1 [[7], [8], [7]] (scanBlocks firstBytes 1 .init [[7], [8], [7]]) ∧
      ∀ recs, Visits (scanBlocks firstBytes 1 .init [[7], [8], [7]]).db recs →
        OutputAgrees ([[7], [8], [7]].map firstBytes) (scanBlocks firstBytes 1 .init [[7], [8], [7]])
          (genOutput recs ∅) :=
  scan_counts_occurrences firstBytes 1 [[7], [8], [7]] (by decide)

/-- The copies of one block, as many as make the count of its digest wrap. -/
theorem not_scanAgrees_replicate {n : ℕ} (hn : 2 ^ 64 ≤ n) (sha1 : List UInt8 → Digest) (bsize : UInt64)
    (block : List UInt8) :
    ¬ ScanAgrees sha1 bsize (List.replicate n block) (scanBlocks sha1 bsize .init (List.replicate n block)) := by
  intro hagrees
  have hmem : visual (sha1 block) ∈ keysOf sha1 (List.replicate n block) := by
    rw [visual_mem_keysOf, List.map_replicate, List.mem_replicate]
    exact ⟨by omega, rfl⟩
  have hocc := hagrees.occurrences (sha1 block)
  rw [if_pos (visual_mem_keysOf.mp hmem), scanBlocks_db, getDb, dbGet, lookup_of_mem (mem_tally.mpr hmem),
    valueAt_tally_uint64, count_keysOf, List.map_replicate, List.count_replicate_self, Option.map_some,
    Option.some.injEq, UInt64.toNat_ofNat'] at hocc
  have := Nat.mod_lt n (Nat.two_pow_pos 64)
  omega

/-- After `2 ^ 64` copies of a block the count of its digest is back at zero. -/
theorem wrappedCount_disagrees :
    ¬ ScanAgrees firstBytes 1 (List.replicate (2 ^ 64) [7])
      (scanBlocks firstBytes 1 .init (List.replicate (2 ^ 64) [7])) :=
  not_scanAgrees_replicate (le_refl (2 ^ 64)) firstBytes 1 [7]

end Dedisbench
