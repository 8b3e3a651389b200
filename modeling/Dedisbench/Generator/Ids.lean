import Dedisbench.Generator.Content
import Mathlib.Order.CompletePartialOrder
import Mathlib.Order.Interval.Set.Basic
import Mathlib.Data.Set.Lattice

/-!
# Block ids

The writer goes from a line and a position in it to a block id, the integrity checker from a block
id to a line by a linear search.  As long as the numbers of blocks of the lines add up to less than
`2 ^ 31`, the ids of the lines partition `1 .. totalUniqueBlocks` and the search undoes the writer
(`ids_partitioned_and_recovered`); when the sum does not fit into an `unsigned int`, lines overlap.

The last section is about the flag of a block: `nextBlock` takes it from the line, `generateData`
decides by the id alone whether to draw a content id.  `flag_content_agree_iff` says for which draws
the two agree.
-/

namespace Dedisbench

open ByteMem ExceptRun Spans

/-! ### Lines and their ids -/

section Lines

variable {F : Type} {ls : List (Linha F)} {l l' : Linha F} {i j : ℕ}

/-- The block ids of a line. -/
def Linha.ids (l : Linha F) : Set ℕ := Set.Ioc l.nrBase (l.nrBase + l.nrBlocks)

theorem LinesOk.base_eq (h : LinesOk ls) (hsum : (ls.map Linha.nrBlocks).sum < 2 ^ 32) (hi : ls[i]? = some l) :
    l.nrBase = start (ls.map Linha.nrBlocks) i := by
  rw [h.base hi]
  exact u32_of_lt (lt_of_le_of_lt (start_le_sum _ _) hsum)

theorem LinesOk.ids_le (h : LinesOk ls) (hsum : (ls.map Linha.nrBlocks).sum < 2 ^ 32) (hi : ls[i]? = some l) :
    l.nrBase + l.nrBlocks ≤ (ls.map Linha.nrBlocks).sum := by
  rw [h.base_eq hsum hi]
  exact span_le (by rw [List.getElem?_map, hi]; rfl)

/-- **An id belongs to one line only.** -/
theorem LinesOk.line_unique (h : LinesOk ls) (hsum : (ls.map Linha.nrBlocks).sum < 2 ^ 32)
    (hi : ls[i]? = some l) (hj : ls[j]? = some l') {id : ℕ} (hl : id ∈ l.ids) (hl' : id ∈ l'.ids) : i = j := by
  have hni : (ls.map Linha.nrBlocks)[i]? = some l.nrBlocks := by rw [List.getElem?_map, hi]; rfl
  have hnj : (ls.map Linha.nrBlocks)[j]? = some l'.nrBlocks := by rw [List.getElem?_map, hj]; rfl
  refine span_unique hni hnj (x := id) ?_ ?_
  · rw [← h.base_eq hsum hi]; exact hl
  · rw [← h.base_eq hsum hj]; exact hl'

theorem LinesOk.exists_line (h : LinesOk ls) (hsum : (ls.map Linha.nrBlocks).sum < 2 ^ 32) {id : ℕ}
    (h1 : 1 ≤ id) (hid : id ≤ (ls.map Linha.nrBlocks).sum) : ∃ (i : ℕ) (l : Linha F), ls[i]? = some l ∧ id ∈ l.ids := by
  obtain ⟨i, n, hi, hlo, hhi⟩ := exists_span h1 hid
  rw [List.getElem?_map, Option.map_eq_some_iff] at hi
  obtain ⟨l, hl, rfl⟩ := hi
  refine ⟨i, l, hl, ?_, ?_⟩
  · rw [h.base_eq hsum hl]; exact hlo
  · rw [h.base_eq hsum hl]; exact hhi

theorem LinesOk.pairwise_disjoint (h : LinesOk ls) (hsum : (ls.map Linha.nrBlocks).sum < 2 ^ 32) :
    ls.Pairwise fun l l' => Disjoint l.ids l'.ids := by
  rw [List.pairwise_iff_getElem]
  intro i j hi hj hij
  rw [Set.disjoint_left]
  intro id hl hl'
  have := h.line_unique hsum (List.getElem?_eq_getElem hi) (List.getElem?_eq_getElem hj) hl hl'
  omega

/-- Below `2 ^ 31` the `int` comparisons of the search are the ones meant. -/
theorem Linha.hasId_iff {id : ℕ} (hl : l.nrBase + l.nrBlocks < 2 ^ 31) (hpos : 1 ≤ l.nrBlocks) :
    l.hasId id = true ↔ id ∈ l.ids := by
  have hid : id ∈ l.ids ↔ l.nrBase < id ∧ id ≤ l.nrBase + l.nrBlocks := Iff.rfl
  rw [Linha.hasId, toInt32_of_lt (by omega), toInt32_of_lt hl, hid]
  simp only [Bool.and_eq_true, decide_eq_true_eq]
  omega

end Lines

/-! ### The two ways to a compression index -/

section Compression

variable {F : Type} [Arith F] {ls : List (Linha F)} {l : Linha F} {r : ℕ}

/-- The percentage of a line at which a position lies. -/
def Linha.percent (l : Linha F) (r : ℕ) : F :=
  Arith.mul (Arith.div (Arith.ofNat r) (Arith.ofNat l.nrBlocks)) (Arith.ofNat 100)

/-- The first `n` shares of a line, added up in order. -/
def Linha.shares (l : Linha F) (n : ℕ) : F := (l.compression.take n).foldl Arith.add (Arith.ofNat 0)

/-- A line has all ten shares, or those it has reach a position. -/
def Linha.Answers (l : Linha F) (r : ℕ) : Prop :=
  10 ≤ l.compression.length ∨ ∃ i < l.compression.length, Arith.le (l.percent r) (l.shares (i + 1)) = true

theorem compressionLoop_le {compression : List F} {myPercent : F} :
    ∀ {n : ℕ} {aux : F} {c : ℕ}, compressionLoop compression myPercent n aux = .ok c → c ≤ 9 := by
  intro n
  induction n with
  | zero => intro aux c h; cases h; exact le_rfl
  | succ n ih =>
    intro aux c h
    simp only [compressionLoop, bind_eq_ok] at h
    obtain ⟨x, -, h⟩ := h
    split at h
    · cases h; omega
    · exact ih h

theorem giveMyCompression_le {pos c : ℕ} (h : giveMyCompression l pos = .ok c) : c ≤ 9 := compressionLoop_le h

theorem compressionLoop_ok_iff : ∀ {n : ℕ}, n ≤ 10 → 10 - n ≤ l.compression.length →
    ((∃ c, compressionLoop l.compression (l.percent r) n (l.shares (10 - n)) = .ok c) ↔
      10 ≤ l.compression.length ∨
        ∃ i, 10 - n ≤ i ∧ i < l.compression.length ∧ Arith.le (l.percent r) (l.shares (i + 1)) = true) := by
  intro n
  induction n with
  | zero =>
    intro _ hlen
    exact ⟨fun _ => .inl hlen, fun _ => ⟨9, rfl⟩⟩
  | succ n ih =>
    intro hn hlen
    rw [compressionLoop]
    rcases Nat.lt_or_ge (9 - n) l.compression.length with hlt | hge
    · have hat : vecAt l.compression (9 - n) = .ok l.compression[9 - n] :=
        vecAt_eq_ok.mpr (List.getElem?_eq_getElem hlt)
      have hsum : Arith.add (l.shares (10 - (n + 1))) l.compression[9 - n] = l.shares (10 - n) := by
        rw [show 10 - n = 9 - n + 1 by omega, Linha.shares, Linha.shares, List.take_add_one,
          List.getElem?_eq_getElem hlt, List.foldl_append, show 10 - (n + 1) = 9 - n by omega]
        rfl
      simp only [hat, bind_ok, hsum]
      by_cases hreach : Arith.le (l.percent r) (l.shares (10 - n)) = true
      · rw [if_pos hreach]
        refine ⟨fun _ => .inr ⟨9 - n, by omega, hlt, ?_⟩, fun _ => ⟨9 - n, rfl⟩⟩
        rwa [show 9 - n + 1 = 10 - n by omega]
      · rw [if_neg hreach, ih (by omega) (by omega)]
        refine or_congr_right ⟨?_, ?_⟩
        · rintro ⟨i, hi, hlt, hle⟩
          exact ⟨i, by omega, hlt, hle⟩
        · rintro ⟨i, hi, hlt, hle⟩
          rcases Nat.eq_or_lt_of_le hi with rfl | hi
          · exact absurd (by rwa [show 10 - (n + 1) + 1 = 10 - n by omega] at hle) hreach
          · exact ⟨i, by omega, hlt, hle⟩
    · have hat : vecAt l.compression (9 - n) = .error .exception := by
        rw [vecAt, List.getElem?_eq_none hge]
      simp only [hat, bind_error]
      refine ⟨fun h => absurd h (by simp), ?_⟩
      rintro (h10 | ⟨i, hi, hlt, -⟩) <;> omega

/-- **Which positions have a compression.** -/
theorem giveMyCompression_ok_iff : (∃ c, giveMyCompression l r = .ok c) ↔ l.Answers r := by
  have hiff := @compressionLoop_ok_iff F _ l r 10 le_rfl (Nat.zero_le _)
  simpa [Linha.Answers, giveMyCompression, Linha.percent, Linha.shares] using hiff

/-- With ten compression values every position has a compression index. -/
theorem giveMyCompression_ok (h : 10 ≤ l.compression.length) (pos : ℕ) :
    ∃ c ≤ 9, giveMyCompression l pos = .ok c := by
  obtain ⟨c, hc⟩ := giveMyCompression_ok_iff.mpr (.inl h)
  exact ⟨c, giveMyCompression_le hc, hc⟩

/-- The search is for the first line that takes the id for its own. -/
theorem compressionById_eq_find {id : ℤ} : compressionById ls id = match ls.find? fun l => l.hasId id with
    | none => .ok (-1)
    | some l => (do
      let x ← giveMyCompression l (ofInt32 (id - l.nrBase))
      .ok (x * 10)) := by
  induction ls with
  | nil => rfl
  | cons l ls ih =>
    rw [compressionById, List.find?_cons]
    by_cases hid : l.hasId id = true
    · have hpos : ofInt32 (toInt32 (ofInt32 (id - l.nrBase))) = ofInt32 (id - l.nrBase) :=
        ofInt32_toInt32 (by unfold ofInt32; omega)
      rw [if_pos hid, hid]
      simp only [hpos]
    · rw [if_neg hid, ih, Bool.eq_false_iff.mpr hid]

theorem compressionById_cases {id x : ℤ} (h : compressionById ls id = .ok x) : x = -1 ∨ ∃ c : ℕ, c ≤ 9 ∧ x = 10 * c := by
  rw [compressionById_eq_find] at h
  split at h
  · cases h
    exact .inl rfl
  · obtain ⟨c, hc, h⟩ := bind_eq_ok.mp h
    cases h
    exact .inr ⟨c, giveMyCompression_le hc, mul_comm _ _⟩

theorem compressionById_none {id : ℤ} (h : ∀ l ∈ ls, l.hasId id = false) : compressionById ls id = .ok (-1) := by
  have hnone : (ls.find? fun l => l.hasId id) = none := List.find?_eq_none.mpr fun l hl => by rw [h l hl]; decide
  rw [compressionById_eq_find, hnone]

/-- **The search undoes the writer**: it finds the line of an id, and its compression index. -/
theorem compressionById_eq (h : LinesOk ls) (hsum : (ls.map Linha.nrBlocks).sum < 2 ^ 31) {i pos c : ℕ}
    (hi : ls[i]? = some l) (h1 : 1 ≤ pos) (hpos : pos ≤ l.nrBlocks) (hc : giveMyCompression l pos = .ok c) :
    compressionById ls ((l.nrBase + pos : ℕ) : ℤ) = .ok (10 * c) := by
  have hsum' : (ls.map Linha.nrBlocks).sum < 2 ^ 32 := by omega
  have hid : ∀ {j : ℕ} {l' : Linha F}, ls[j]? = some l' →
      (l'.hasId ((l.nrBase + pos : ℕ) : ℤ) = true ↔ l.nrBase + pos ∈ l'.ids) := by
    intro j l' hj
    refine Linha.hasId_iff ?_ (h.pos l' (List.mem_of_getElem? hj))
    have := h.ids_le hsum' hj
    omega
  have hmem : l.nrBase + pos ∈ l.ids := ⟨by omega, by omega⟩
  -- no line before it takes the id for its own
  have hfind : (ls.find? fun l' => l'.hasId ((l.nrBase + pos : ℕ) : ℤ)) = some l := by
    obtain ⟨hlt, hget⟩ := List.getElem?_eq_some_iff.mp hi
    refine List.find?_eq_some_iff_getElem.mpr ⟨(hid hi).mpr hmem, i, hlt, hget, fun j hj => ?_⟩
    have hj' : ls[j]? = some ls[j] := List.getElem?_eq_getElem (hj.trans hlt)
    by_contra hne
    have := h.line_unique hsum' hj' hi ((hid hj').mp (by simpa using hne)) hmem
    omega
  have hdiff : ((l.nrBase + pos : ℕ) : ℤ) - l.nrBase = (pos : ℕ) := by omega
  have hlt : pos < 2 ^ 32 := by
    have := h.ids_le hsum' hi
    omega
  rw [compressionById_eq_find, hfind]
  simp only [hdiff, ofInt32_natCast hlt, hc, bind_ok, mul_comm]

end Compression

/-! ### What `nextBlock` draws -/

section Draws

variable {g₀ g g' : Generator} {info : DuplicatesInfo} {d : Generator.Draw} {b b' : BlockInfo} {r : ModelRef}

theorem Generator.getLinha_mem {l : Linha Float} {raw : ℕ} (h : g.getLinha raw = .ok l) :
    ∃ i : ℕ, g.linhas[i]? = some l := ⟨_, vecAt_eq_ok.mp h⟩

theorem Generator.getRandomBlockFromLine_le {l : Linha Float} {raw pos : ℕ}
    (h : Generator.getRandomBlockFromLine l raw = .ok pos) : 1 ≤ pos ∧ pos ≤ l.nrBlocks :=
  uniformInt_eq_ok h

/-- **The line of a block**, at any time of a run of a loaded generator. -/
theorem Loaded.nextBlock_line (hg : Loaded g₀ info) (hsum : g₀.blockCounts.sum < 2 ^ 32)
    (hr : Generator.Reach g₀ g) (h : g.nextBlock d b = .ok (g', r, b')) :
    ∃ (i : ℕ) (l : Linha Float) (pos : ℕ), g₀.linhas[i]? = some l ∧ 1 ≤ pos ∧ pos ≤ l.nrBlocks ∧
      b'.blockId = l.nrBase + pos ∧
      giveMyCompression l pos = .ok b'.compressionIndex ∧
      b'.flagUniqueBlock = if l.nrCopies = 0 then 1 else 0 := by
  obtain ⟨l, pos, ci, res, hl, hpos, hci, -, rfl⟩ := Generator.nextBlock_eq_ok.mp h
  obtain ⟨i, hi⟩ := Generator.getLinha_mem hl
  rw [Generator.linhas_of_frame hr.frame_eq] at hi
  obtain ⟨h1, hle⟩ := Generator.getRandomBlockFromLine_le hpos
  refine ⟨i, l, pos, hi, h1, hle, ?_, hci, rfl⟩
  have hend : l.nrBase + l.nrBlocks ≤ g₀.blockCounts.sum := hg.lines.ids_le hsum hi
  show u32 (pos + l.nrBase) = l.nrBase + pos
  rw [u32_of_lt (by omega), Nat.add_comm]

end Draws

/-! ### The id space -/

/-- The lines of a generator share out the ids `1 .. totalUniqueBlocks` among them. -/
structure IdsPartitioned (g : Generator) : Prop where
  nonempty : ∀ l ∈ g.linhas, l.ids.Nonempty
  disjoint : g.linhas.Pairwise fun l l' => Disjoint l.ids l'.ids
  cover : (⋃ l ∈ g.linhas, l.ids) = Set.Icc 1 g.totalUniqueBlocks

theorem Loaded.idsPartitioned {g : Generator} {info : DuplicatesInfo} (hg : Loaded g info)
    (hsum : g.blockCounts.sum < 2 ^ 32) : IdsPartitioned g := by
  have htotal : g.totalUniqueBlocks = g.blockCounts.sum := by rw [hg.total, u32_of_lt hsum]
  refine ⟨?_, hg.lines.pairwise_disjoint hsum, ?_⟩
  · intro l hl
    have := hg.lines.pos l hl
    exact ⟨l.nrBase + 1, by omega, by omega⟩
  · ext id
    simp only [Set.mem_iUnion, htotal]
    constructor
    · rintro ⟨l, hl, hlo, hhi⟩
      obtain ⟨i, hi⟩ := List.mem_iff_getElem?.mp hl
      have := hg.lines.ids_le hsum hi
      exact ⟨by omega, le_trans hhi this⟩
    · rintro ⟨h1, hid⟩
      obtain ⟨i, l, hi, hl⟩ := hg.lines.exists_line hsum h1 hid
      exact ⟨l, List.mem_of_getElem? hi, hl⟩

/-- **The id space is partitioned and the two compression paths agree**, for every distribution
whose lines have ten compression values and add up to less than `2 ^ 31` blocks. -/
theorem ids_partitioned_and_recovered {bs n pa pc : ℕ} {file : Option (List Char)} {ld : LoadDraws}
    {g : Generator} {info : DuplicatesInfo}
    (h : initializeGenerator (.mk' bs n pa pc) file ld = .ok (g, some info, 1))
    (hten : ∀ l ∈ g.linhas, l.compression.length = 10) (hsum : g.blockCounts.sum < 2 ^ 31) :
    IdsPartitioned g ∧
    (∀ g₁ g₂ d b r b', Generator.Reach g g₁ → g₁.nextBlock d b = .ok (g₂, r, b') →
      b'.blockId ∈ Set.Icc 1 g.totalUniqueBlocks ∧
      g.getBlockCompressionById b'.blockId = .ok (10 * b'.compressionIndex)) ∧
    ∀ l ∈ g.linhas, ∀ r, 1 ≤ r → r ≤ l.nrBlocks → ∃ c ≤ 9, giveMyCompression l r = .ok c ∧
      g.getBlockCompressionById ((l.nrBase + r : ℕ) : ℤ) = .ok (10 * c) := by
  obtain ⟨hg, -⟩ := loaded_of_initialize h
  have hsum' : g.blockCounts.sum < 2 ^ 32 := by omega
  have hpart := hg.idsPartitioned hsum'
  refine ⟨hpart, ?_, ?_⟩
  · intro g₁ g₂ d b r b' hr hn
    obtain ⟨i, l, pos, hi, h1, hpos, hid, hci, -⟩ := hg.nextBlock_line hsum' hr hn
    rw [hid, ← hpart.cover]
    refine ⟨?_, compressionById_eq hg.lines hsum hi h1 hpos hci⟩
    simp only [Set.mem_iUnion]
    exact ⟨l, List.mem_of_getElem? hi, by omega, by omega⟩
  · intro l hl r h1 hr
    obtain ⟨i, hi⟩ := List.mem_iff_getElem?.mp hl
    obtain ⟨c, hc9, hc⟩ := giveMyCompression_ok (hten l hl).ge r
    exact ⟨c, hc9, hc, compressionById_eq hg.lines hsum hi h1 hr hc⟩

theorem plainDistribution_ids : ∃ g info,
    initializeGenerator (.mk' 4096 256 2 25) (some plainDistribution) plainDraws = .ok (g, some info, 1) ∧
      IdsPartitioned g ∧ g.totalUniqueBlocks = 192 := by
  obtain ⟨g, info, h, hg⟩ := exists_of_loadsWith (x := initializeGenerator (.mk' 4096 256 2 25)
    (some plainDistribution) plainDraws) (T := fun g _ => g.totalUniqueBlocks = 192 ∧
      g.blockCounts.sum = 192 ∧ ∀ l ∈ g.linhas, l.compression.length = 10) (by decide +kernel)
  obtain ⟨htotal, hsum, hten⟩ := of_decide_eq_true hg
  exact ⟨g, info, h, (ids_partitioned_and_recovered h hten (by omega)).1, htotal⟩

/-- When only the total, an `unsigned int`, is below `2 ^ 31`, two lines can share ids. -/
theorem wrapDistribution_ids : ∃ g info,
    initializeGenerator (.mk' 1048576 1 1 25) (some wrapDistribution) plainDraws = .ok (g, some info, 1) ∧
      (∀ l ∈ g.linhas, l.compression.length = 10) ∧ g.totalUniqueBlocks < 2 ^ 31 ∧ ¬ IdsPartitioned g := by
  obtain ⟨g, info, h, hg⟩ := exists_of_loadsWith (x := initializeGenerator (.mk' 1048576 1 1 25)
    (some wrapDistribution) plainDraws) (T := fun g _ => g.totalUniqueBlocks = 1672 ∧
      (∀ l ∈ g.linhas, l.compression.length = 10) ∧
      g.linhas.map (fun l => (l.nrBase, l.nrBlocks)) = [(0, 1000), (1000, 4294966968), (672, 1000)])
    (by decide +kernel)
  obtain ⟨htotal, hten, hlines⟩ := of_decide_eq_true hg
  refine ⟨g, info, h, hten, by omega, fun hpart => ?_⟩
  -- the last id of the second line is far above the total
  have hmem : (1000, 4294966968) ∈ g.linhas.map fun l => (l.nrBase, l.nrBlocks) := by rw [hlines]; simp
  obtain ⟨l, hl, hlb⟩ := List.mem_map.mp hmem
  simp only [Prod.mk.injEq] at hlb
  have hid : 2000 ∈ l.ids := ⟨by omega, by omega⟩
  have hin : 2000 ∈ ⋃ l ∈ g.linhas, l.ids := by
    simp only [Set.mem_iUnion]
    exact ⟨l, hl, hid⟩
  rw [hpart.cover, htotal] at hin
  have := hin.2
  omega

/-! ### The flag and the content id -/

section Flag

variable {g g' : Generator} {d : Generator.Draw} {b b' : BlockInfo} {r : ModelRef}

/-- The number of blocks of the first line without copies, `0` if there is none. -/
def firstZeroBlocks {F : Type} (ls : List (Linha F)) : ℕ :=
  match ls.find? fun l => l.nrCopies == 0 with
  | some l => l.nrBlocks
  | none => 0

theorem Generator.randomises_iff {id : ℕ} : g.randomises id = true ↔ id < firstZeroBlocks g.linhas := by
  unfold Generator.randomises firstZeroBlocks
  cases g.linhas.find? fun l => l.nrCopies == 0 with
  | none => simp
  | some l => simp

theorem Generator.drawContent_of_lt {id raw : ℕ} (h : id < firstZeroBlocks g.linhas) :
    g.drawContent id raw = uniformInt g.totalUniqueBlocks uintMax raw :=
  if_pos (Generator.randomises_iff.mpr h)

theorem Generator.drawContent_of_ge {id raw : ℕ} (h : firstZeroBlocks g.linhas ≤ id) :
    g.drawContent id raw = .ok id :=
  if_neg fun hr => by have := Generator.randomises_iff.mp hr; omega

/-- What the flag of a block promises about its content id: the block id itself for a block with
copies; for one without, a content id drawn for it, outside the id space. -/
def FlagAgrees (total : ℕ) (d : Generator.Draw) (b : BlockInfo) : Prop :=
  (b.flagUniqueBlock = 0 → b.contId = b.blockId) ∧
  (b.flagUniqueBlock = 1 → uniformInt total uintMax d.content = .ok b.contId ∧
    b.contId ∉ Set.Icc 1 total ∧ b.contId ≠ b.blockId)

/-- **When the flag and the content id agree.**  Let the draws be a line, a position in it (so an id)
and a content id `v`.  An id of a line with copies must not be below the number of blocks of the first
line without copies, unless `v` happens to be that id; an id of a line without copies must be below
it, and `v` must not be the total, the lowest value that can be drawn.  This holds in every state of a
generator, whatever distribution it was loaded from. -/
theorem flag_content_agree_iff {l : Linha Float} {pos id v : ℕ} (hl : g.getLinha d.line = .ok l)
    (hpos : Generator.getRandomBlockFromLine l d.pos = .ok pos) (hid : id = u32 (pos + l.nrBase))
    (hv : uniformInt g.totalUniqueBlocks uintMax d.content = .ok v)
    (hn : g.nextBlock d b = .ok (g', r, b')) :
    FlagAgrees g.totalUniqueBlocks d b' ↔
      (l.nrCopies ≠ 0 → firstZeroBlocks g.linhas ≤ id ∨ v = id) ∧
      (l.nrCopies = 0 → id < firstZeroBlocks g.linhas ∧
        (g.totalUniqueBlocks < v ∨ g.totalUniqueBlocks = 0) ∧ v ≠ id) := by
  have hlow := (uniformInt_eq_ok hv).1
  have hicc : v ∉ Set.Icc 1 g.totalUniqueBlocks ↔ g.totalUniqueBlocks < v ∨ g.totalUniqueBlocks = 0 := by
    rw [Set.mem_Icc]
    omega
  have hcont := (Generator.nextBlock_content hn).1
  obtain ⟨hblock, hflag⟩ : b'.blockId = id ∧ b'.flagUniqueBlock = if l.nrCopies = 0 then 1 else 0 := by
    obtain ⟨l', pos', ci, res, hl', hpos', -, -, rfl⟩ := Generator.nextBlock_eq_ok.mp hn
    cases hl.symm.trans hl'
    cases hpos.symm.trans hpos'
    exact ⟨hid.symm, rfl⟩
  rw [hblock] at hcont
  unfold FlagAgrees
  rw [hflag, hblock, hv]
  by_cases hz : id < firstZeroBlocks g.linhas
  · -- the content id is the one drawn
    rw [Generator.drawContent_of_lt hz, hv, Except.ok.injEq] at hcont
    subst hcont
    by_cases hc : l.nrCopies = 0
    · rw [if_pos hc, hicc]
      simp only [hc, hz, ne_eq, not_true_eq_false, false_implies, true_implies, true_and, one_ne_zero]
    · rw [if_neg hc]
      simp only [hc, ne_eq, not_false_eq_true, true_implies, false_implies, and_true, zero_ne_one]
      omega
  · -- the content id is the block id
    rw [Generator.drawContent_of_ge (by omega), Except.ok.injEq] at hcont
    by_cases hc : l.nrCopies = 0
    · rw [if_pos hc, ← hcont]
      simp only [hc, hz, ne_eq, not_true_eq_false, false_implies, true_implies, and_false, false_and]
    · rw [if_neg hc, ← hcont]
      simp only [hc, ne_eq, not_false_eq_true, true_implies, false_implies, and_true, zero_ne_one]
      exact ⟨fun _ => .inl (Nat.le_of_not_lt hz), fun _ => trivial⟩

theorem plainDistribution_flag : ∃ g info g' r b',
    initializeGenerator (.mk' 4096 256 2 25) (some plainDistribution) plainDraws = .ok (g, some info, 1) ∧
      g.nextBlock ⟨0, 0, 5⟩ ⟨0, 0, 0, 0, 0⟩ = .ok (g', r, b') ∧ b'.flagUniqueBlock = 1 ∧
      FlagAgrees 192 ⟨0, 0, 5⟩ b' := by
  obtain ⟨g, info, h, hg⟩ := exists_of_loadsWith (x := initializeGenerator (.mk' 4096 256 2 25)
    (some plainDistribution) plainDraws) (T := fun g _ => g.totalUniqueBlocks = 192 ∧
      g.weights.length = 2 ∧ firstZeroBlocks g.linhas = 128 ∧
      g.linhas.map (fun l => (l.nrCopies, l.nrBlocks, l.nrBase)) = [(0, 128, 0), (1, 64, 128)] ∧
      okWith (g.nextBlock ⟨0, 0, 5⟩ ⟨0, 0, 0, 0, 0⟩) fun _ => true) (by decide +kernel)
  obtain ⟨htotal, hw, hfirst, hlines, hn⟩ := of_decide_eq_true hg
  obtain ⟨⟨g', r, b'⟩, hn, -⟩ := exists_of_okWith hn
  obtain ⟨l, pos, ci, res, hl, hpos, -, -, hb⟩ := Generator.nextBlock_eq_ok.mp hn
  -- the line drawn is the first
  have hl0 : g.linhas[0]? = some l := by
    have := vecAt_eq_ok.mp hl
    rwa [hw] at this
  have hfields : (l.nrCopies, l.nrBlocks, l.nrBase) = (0, 128, 0) := by
    have := congrArg (·[0]?) hlines
    simpa [List.getElem?_map, hl0] using this
  simp only [Prod.mk.injEq] at hfields
  obtain ⟨hc, hk, hbase⟩ := hfields
  have hpos1 : pos = 1 := by
    rw [Generator.getRandomBlockFromLine, hk] at hpos
    cases hpos
    rfl
  refine ⟨g, info, g', r, b', h, hn, by rw [hb]; exact if_pos hc, ?_⟩
  rw [← htotal]
  refine (flag_content_agree_iff (v := 197) hl hpos rfl (by rw [htotal]; rfl) hn).mpr ⟨?_, fun _ => ?_⟩
  · intro hne
    exact absurd hc hne
  · rw [hpos1, hbase, hfirst, htotal]
    decide

/-- The last id of the line without copies keeps its block id as its content id. -/
theorem plainDistribution_boundary : ∃ g info g' r b',
    initializeGenerator (.mk' 4096 256 2 25) (some plainDistribution) plainDraws = .ok (g, some info, 1) ∧
      g.nextBlock ⟨0, 127, 5⟩ ⟨0, 0, 0, 0, 0⟩ = .ok (g', r, b') ∧ b'.blockId = 128 ∧
      b'.flagUniqueBlock = 1 ∧ b'.contId = 128 ∧ ¬ FlagAgrees g.totalUniqueBlocks ⟨0, 127, 5⟩ b' := by
  obtain ⟨g, info, h, hg⟩ := exists_of_loadsWith (x := initializeGenerator (.mk' 4096 256 2 25)
    (some plainDistribution) plainDraws) (T := fun g _ =>
      okWith (g.nextBlock ⟨0, 127, 5⟩ ⟨0, 0, 0, 0, 0⟩) fun x =>
        x.2.2.blockId = 128 ∧ x.2.2.flagUniqueBlock = 1 ∧ x.2.2.contId = 128) (by decide +kernel)
  obtain ⟨⟨g', r, b'⟩, hn, hb⟩ := exists_of_okWith hg
  obtain ⟨hid, hflag, hcont⟩ := of_decide_eq_true hb
  refine ⟨g, info, g', r, b', h, hn, hid, hflag, hcont, fun hagree => ?_⟩
  exact (hagree.2 hflag).2.2 (hcont.trans hid.symm)

end Flag

end Dedisbench
