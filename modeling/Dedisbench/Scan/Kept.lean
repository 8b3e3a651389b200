import Dedisbench.Scan.Counters

/-!
# A scan over a database that was kept

With `-k` the duplicates database is the one an earlier run left.  `dif` counts the digests that are new to
it, `distinctdup` the digests, new or kept, that are found with a count of one.  So the summary is right
exactly if no kept digest is found with a count of one (`summary_exact_iff`).
-/

namespace Dedisbench

open Tally

/-- The counters are zero, and the database is one that was kept. -/
def Scan.kept (db : DuplicateDb) : Scan := ⟨0, 0, 0, 0, 0, db⟩

section Keys

variable (kept : DuplicateDb) (keys : List (List UInt8))

/-- The keys that the database did not have. -/
def newKeys : Finset (List UInt8) := keys.toFinset.filter (· ∉ kept)

/-- The keys that are found with a count of one, at their first occurrence or at a later one. -/
def repeatedKeys : Finset (List UInt8) :=
  keys.toFinset.filter fun k => ∃ j < keys.count k, valueAt kept k + .ofNat j = 1

/-- A kept key is found with a count of one. -/
def ComesBack : Prop := ∃ k ∈ kept, ∃ j < keys.count k, valueAt kept k + .ofNat j = 1

/-- The keys that are new and occur only once. -/
def singleKeys : Finset (List UInt8) := (newKeys kept keys).filter fun k => keys.count k = 1

end Keys

variable {kept : DuplicateDb} {keys : List (List UInt8)} {k : List UInt8}

/-! ### One more key -/

theorem newKeys_concat_of_mem (h : k ∈ kept ∨ k ∈ keys) : newKeys kept (keys ++ [k]) = newKeys kept keys := by
  ext a
  simp only [newKeys, toFinset_concat, Finset.mem_filter, Finset.mem_insert, List.mem_toFinset]
  rcases eq_or_ne a k with rfl | ha
  · tauto
  · simp [ha]

theorem newKeys_concat_of_notMem (hkept : k ∉ kept) (hkeys : k ∉ keys) :
    (newKeys kept (keys ++ [k])).card = (newKeys kept keys).card + 1 := by
  have hk : k ∉ newKeys kept keys := by
    rw [newKeys, Finset.mem_filter, List.mem_toFinset]
    exact fun h => hkeys h.1
  rw [← Finset.card_insert_of_notMem hk]
  congr 1
  ext a
  simp only [newKeys, toFinset_concat, Finset.mem_filter, Finset.mem_insert, List.mem_toFinset]
  rcases eq_or_ne a k with rfl | ha
  · simp [hkept]
  · simp [ha]

/-- An occurrence of another key changes nothing. -/
theorem mem_repeatedKeys_concat_of_ne {a : List UInt8} (ha : a ≠ k) :
    a ∈ repeatedKeys kept (keys ++ [k]) ↔ a ∈ repeatedKeys kept keys := by
  have hcount : (keys ++ [k]).count a = keys.count a := by
    rw [List.count_append, List.count_singleton]
    simp [ha.symm]
  simp only [repeatedKeys, toFinset_concat, Finset.mem_filter, Finset.mem_insert, List.mem_toFinset, hcount]
  simp [ha]

theorem mem_repeatedKeys_concat_self : k ∈ repeatedKeys kept (keys ++ [k]) ↔
    k ∈ repeatedKeys kept keys ∨ valueAt kept k + .ofNat (keys.count k) = 1 := by
  have hcount : (keys ++ [k]).count k = keys.count k + 1 := by
    rw [List.count_append, List.count_singleton_self]
  simp only [repeatedKeys, toFinset_concat, Finset.mem_filter, Finset.mem_insert, List.mem_toFinset, hcount,
    true_or, true_and]
  constructor
  · rintro ⟨j, hj, hone⟩
    rcases Nat.lt_succ_iff_lt_or_eq.mp hj with hlt | rfl
    · left
      exact ⟨List.count_pos_iff.mp (by omega), j, hlt, hone⟩
    · exact .inr hone
  · rintro (⟨-, j, hj, hone⟩ | hone)
    · exact ⟨j, Nat.lt_succ_of_lt hj, hone⟩
    · exact ⟨keys.count k, Nat.lt_succ_self _, hone⟩

theorem repeatedKeys_concat_of_ne_one (h : valueAt kept k + .ofNat (keys.count k) ≠ 1) :
    repeatedKeys kept (keys ++ [k]) = repeatedKeys kept keys := by
  ext a
  rcases eq_or_ne a k with rfl | ha
  · rw [mem_repeatedKeys_concat_self]
    simp [h]
  · exact mem_repeatedKeys_concat_of_ne ha

/-- A key is found with a count of one once at most, as long as there are fewer blocks than counts. -/
theorem repeatedKeys_concat_of_one (hlen : keys.length < 2 ^ 64)
    (h : valueAt kept k + .ofNat (keys.count k) = 1) :
    (repeatedKeys kept (keys ++ [k])).card = (repeatedKeys kept keys).card + 1 := by
  have hk : k ∉ repeatedKeys kept keys := by
    intro hk
    simp only [repeatedKeys, Finset.mem_filter] at hk
    obtain ⟨-, j, hj, hone⟩ := hk
    have hcount : keys.count k < 2 ^ 64 := lt_of_le_of_lt List.count_le_length hlen
    have hsame : UInt64.ofNat j = .ofNat (keys.count k) := (UInt64.add_right_inj _).mp (hone.trans h.symm)
    have hnat := congrArg UInt64.toNat hsame
    rw [toNat_ofNat (by omega), toNat_ofNat hcount] at hnat
    omega
  rw [← Finset.card_insert_of_notMem hk]
  congr 1
  ext a
  rw [Finset.mem_insert]
  rcases eq_or_ne a k with rfl | ha
  · rw [mem_repeatedKeys_concat_self]
    simp [h]
  · rw [mem_repeatedKeys_concat_of_ne ha]
    simp [ha]

/-! ### The counters -/

/-- What the counters of the summary hold, `keys` being the keys of the blocks so far. -/
structure KeptCounted (kept : DuplicateDb) (keys : List (List UInt8)) (s : Scan) : Prop where
  mem : ∀ k, k ∈ s.db ↔ k ∈ kept ∨ k ∈ keys
  value : ∀ k, valueAt s.db k = valueAt kept k + .ofNat (keys.count k)
  dif : s.dif = .ofNat (newKeys kept keys).card
  distinctdup : s.distinctdup = .ofNat (repeatedKeys kept keys).card

variable {sha1 : List UInt8 → Digest} {bsize : UInt64} {s : Scan}

theorem KeptCounted.init (kept : DuplicateDb) : KeptCounted kept [] (.kept kept) where
  mem k := by simp [Scan.kept]
  value k := by simp [Scan.kept]
  dif := rfl
  distinctdup := rfl

/-- **One more block.** -/
theorem KeptCounted.step (h : KeptCounted kept keys s) (hlen : keys.length < 2 ^ 64) (block : List UInt8) :
    KeptCounted kept (keys ++ [visual (sha1 block)]) (checkDuplicates sha1 bsize s block) := by
  set k := visual (sha1 block) with hk
  have hmem : ∀ a, a ∈ (checkDuplicates sha1 bsize s block).db ↔ a ∈ kept ∨ a ∈ keys ++ [k] := by
    intro a
    rw [checkDuplicates_db, mem_add, h.mem, List.mem_append, List.mem_singleton]
    tauto
  have hvalue : ∀ a, valueAt (checkDuplicates sha1 bsize s block).db a =
      valueAt kept a + .ofNat ((keys ++ [k]).count a) := by
    intro a
    rw [checkDuplicates_db, valueAt_add, h.value, List.count_append, List.count_singleton, ← hk, UInt64.add_assoc]
    rcases eq_or_ne a k with rfl | ha
    · simp [ofNat_succ]
    · simp [ha, ha.symm]
  by_cases hdb : k ∈ s.db
  · -- a digest that is in the database
    rw [checkDuplicates_of_mem hdb] at hmem hvalue ⊢
    refine ⟨hmem, hvalue, ?_, ?_⟩
    · rw [newKeys_concat_of_mem ((h.mem k).mp hdb), ← h.dif]
    · simp only [← hk]
      by_cases hone : valueAt kept k + .ofNat (keys.count k) = 1
      · rw [if_pos ((h.value k).trans hone), repeatedKeys_concat_of_one hlen hone, h.distinctdup, ofNat_succ]
      · rw [if_neg (by rwa [h.value k]), repeatedKeys_concat_of_ne_one hone, h.distinctdup]
  · -- a new digest
    have hnot := not_or.mp (mt (h.mem k).mpr hdb)
    have hzero : valueAt kept k + .ofNat (keys.count k) ≠ 1 := by
      rw [valueAt_of_notMem hnot.1, List.count_eq_zero.mpr hnot.2]
      decide
    rw [checkDuplicates_of_notMem hdb] at hmem hvalue ⊢
    refine ⟨hmem, hvalue, ?_, ?_⟩
    · rw [newKeys_concat_of_notMem hnot.1 hnot.2, ofNat_succ, ← h.dif]
    · rw [repeatedKeys_concat_of_ne_one hzero, ← h.distinctdup]

/-- The counters of a whole run. -/
theorem KeptCounted.scan (sha1 : List UInt8 → Digest) (bsize : UInt64) (kept : DuplicateDb)
    {blocks : List (List UInt8)} (hlen : blocks.length ≤ 2 ^ 64) :
    KeptCounted kept (keysOf sha1 blocks) (scanBlocks sha1 bsize (.kept kept) blocks) := by
  induction blocks using List.reverseRecOn with
  | nil => exact KeptCounted.init kept
  | append_singleton blocks block ih =>
    rw [List.length_append, List.length_singleton] at hlen
    rw [scanBlocks, List.foldl_concat, ← scanBlocks, keysOf, List.map_append, List.map_singleton]
    apply (ih (by omega)).step
    rw [keysOf, List.length_map]
    omega

/-! ### The summary -/

/-- A new key is found with a count of one when it occurs for the second time. -/
theorem mem_repeatedKeys_of_new (hlen : keys.length < 2 ^ 64) (hk : k ∉ kept) :
    k ∈ repeatedKeys kept keys ↔ 2 ≤ keys.count k := by
  have hcount : keys.count k < 2 ^ 64 := lt_of_le_of_lt List.count_le_length hlen
  simp only [repeatedKeys, Finset.mem_filter, List.mem_toFinset, valueAt_of_notMem hk, UInt64.zero_add]
  constructor
  · rintro ⟨-, j, hj, hone⟩
    have hnat := congrArg UInt64.toNat hone
    rw [toNat_ofNat (by omega)] at hnat
    have hone : j = 1 := hnat
    omega
  · intro h2
    exact ⟨List.count_pos_iff.mp (by omega), 1, h2, rfl⟩

/-- The new keys occur once or are repeated. -/
theorem card_newKeys (hlen : keys.length < 2 ^ 64) :
    (newKeys kept keys).card = (singleKeys kept keys).card +
      ((newKeys kept keys).filter (· ∈ repeatedKeys kept keys)).card := by
  rw [singleKeys, ← Finset.card_filter_add_card_filter_not (s := newKeys kept keys) fun k => keys.count k = 1]
  congr 2
  apply Finset.filter_congr
  intro k hk
  rw [newKeys, Finset.mem_filter, List.mem_toFinset] at hk
  have hpos := List.count_pos_iff.mpr hk.1
  rw [mem_repeatedKeys_of_new hlen hk.2]
  omega

/-- The repeated keys are new or kept. -/
theorem card_repeatedKeys : (repeatedKeys kept keys).card =
    ((newKeys kept keys).filter (· ∈ repeatedKeys kept keys)).card +
      ((repeatedKeys kept keys).filter (· ∈ kept)).card := by
  rw [Nat.add_comm, ← Finset.card_filter_add_card_filter_not (s := repeatedKeys kept keys) (· ∈ kept)]
  congr 2
  ext k
  simp only [newKeys, Finset.mem_filter]
  constructor
  · rintro ⟨hrep, hk⟩
    exact ⟨⟨(Finset.mem_filter.mp hrep).1, hk⟩, hrep⟩
  · rintro ⟨⟨-, hk⟩, hrep⟩
    exact ⟨hrep, hk⟩

theorem comesBack_iff : ComesBack kept keys ↔ ((repeatedKeys kept keys).filter (· ∈ kept)).card ≠ 0 := by
  rw [Finset.card_ne_zero]
  constructor
  · rintro ⟨k, hk, j, hj, hone⟩
    refine ⟨k, Finset.mem_filter.mpr ⟨Finset.mem_filter.mpr ⟨?_, j, hj, hone⟩, hk⟩⟩
    exact List.mem_toFinset.mpr (List.count_pos_iff.mp (by omega))
  · rintro ⟨k, hk⟩
    obtain ⟨hrep, hkept⟩ := Finset.mem_filter.mp hk
    exact ⟨k, hkept, (Finset.mem_filter.mp hrep).2⟩

/-- **The summary is right exactly if no kept digest is found with a count of one.**  Then, and only then,
`dif - distinctdup` does not wrap and is the number of digests that are new and occur only once. -/
theorem summary_exact_iff (sha1 : List UInt8 → Digest) (bsize : UInt64) (kept : DuplicateDb)
    (blocks : List (List UInt8)) (hlen : blocks.length < 2 ^ 64) :
    ((scanBlocks sha1 bsize (.kept kept) blocks).distinctdup ≤ (scanBlocks sha1 bsize (.kept kept) blocks).dif ∧
      (scanBlocks sha1 bsize (.kept kept) blocks).zerodups.toNat = (singleKeys kept (keysOf sha1 blocks)).card) ↔
      ¬ ComesBack kept (keysOf sha1 blocks) := by
  have h := KeptCounted.scan sha1 bsize kept hlen.le
  set s := scanBlocks sha1 bsize (.kept kept) blocks
  set keys := keysOf sha1 blocks with hkeys
  have hlen' : keys.length < 2 ^ 64 := by rwa [hkeys, keysOf, List.length_map]
  have hcard : keys.toFinset.card < 2 ^ 64 := lt_of_le_of_lt (List.toFinset_card_le _) hlen'
  have hdif : s.dif.toNat = (newKeys kept keys).card := by
    rw [h.dif]
    exact toNat_ofNat (lt_of_le_of_lt (Finset.card_filter_le _ _) hcard)
  have hdup : s.distinctdup.toNat = (repeatedKeys kept keys).card := by
    rw [h.distinctdup]
    exact toNat_ofNat (lt_of_le_of_lt (Finset.card_filter_le _ _) hcard)
  have hnew := @card_newKeys kept keys hlen'
  have hrep := @card_repeatedKeys kept keys
  rw [comesBack_iff, not_not, UInt64.le_iff_toNat_le]
  constructor
  · rintro ⟨hle, hzero⟩
    rw [Scan.zerodups, UInt64.toNat_sub_of_le _ _ (UInt64.le_iff_toNat_le.mpr hle)] at hzero
    omega
  · intro hnone
    have hle : s.distinctdup.toNat ≤ s.dif.toNat := by omega
    refine ⟨hle, ?_⟩
    rw [Scan.zerodups, UInt64.toNat_sub_of_le _ _ (UInt64.le_iff_toNat_le.mpr hle)]
    omega

/-- A database with one digest, seen `n` times. -/
def keptOnce (n : UInt64) : DuplicateDb := putDb ∅ (visual (firstBytes [7])) n

/-- A kept digest that was seen twice before is not counted again. -/
theorem keptTwice_summary :
    (scanBlocks firstBytes 1 (.kept (keptOnce 2)) [[7], [8]]).distinctdup ≤
        (scanBlocks firstBytes 1 (.kept (keptOnce 2)) [[7], [8]]).dif ∧
      (scanBlocks firstBytes 1 (.kept (keptOnce 2)) [[7], [8]]).zerodups.toNat =
        (singleKeys (keptOnce 2) (keysOf firstBytes [[7], [8]])).card := by
  apply (summary_exact_iff firstBytes 1 (keptOnce 2) [[7], [8]] (by decide)).mpr
  rintro ⟨k, hk, j, hj, hone⟩
  have hk := (Finmap.mem_insert.mp hk).resolve_right Finmap.notMem_empty
  subst hk
  have hcount : (keysOf firstBytes [[7], [8]]).count (visual (firstBytes [7])) = 1 := by decide +kernel
  have hzero : j = 0 := by omega
  rw [hzero] at hone
  exact absurd hone (by decide +kernel)

/-- A kept digest that was seen once, and now again: no block is new and one has duplicates. -/
theorem keptOnce_wraps :
    ¬ (scanBlocks firstBytes 1 (.kept (keptOnce 1)) [[7]]).distinctdup ≤
        (scanBlocks firstBytes 1 (.kept (keptOnce 1)) [[7]]).dif ∧
    (scanBlocks firstBytes 1 (.kept (keptOnce 1)) [[7]]).zerodups = 18446744073709551615 := by
  decide +kernel

end Dedisbench
