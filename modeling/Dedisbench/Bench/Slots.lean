import Dedisbench.Bench.Distout

/-!
# Slots of the statistics

A block with copies has a slot in the statistics.  Three functions compute it: `process_run` (`statisticsIndex`),
`real_populate` (`indexId`) and, from the slot to the block, `gen_outputdist` (`outputdistId`).  The last two are each
other's inverse, but the ids of the blocks with copies begin one higher than they take it, so the block with the
highest id is counted in `zerodups` (`population_counts_iff`).  The first one has the sign wrong, so that it is below
zero (`process_slot_iff`).
-/

namespace Dedisbench

open ExceptRun

variable {conf : Conf} {info : DuplicatesInfo} {g₀ : Generator} {b b' : BlockInfo}

/-! ### The three slots -/

/-- `block_id` of `gen_outputdist`: the block that slot `i` is for. -/
def outputdistId (info : DuplicatesInfo) (i : ℕ) : ℕ := u64 (i + info.zeroCopyBlocks)

/-- The slot that `process_run` computes for a block is in the statistics, it is the slot that `gen_outputdist` takes
to be the block's, and `real_populate` computes the same. -/
structure SlotRight (info : DuplicatesInfo) (b : BlockInfo) : Prop where
  nonneg : 0 ≤ statisticsIndex info b
  lt : statisticsIndex info b < info.duplicatedBlocks
  label : outputdistId info (statisticsIndex info b).toNat = b.blockId
  populated : (indexId info b : ℤ) = statisticsIndex info b

/-- `real_populate` counts a block with copies at its `indexId`. -/
theorem populateCount_of_copies {sh : Shared} (hd : conf.distout = true) (hflag : b.flagUniqueBlock = 0) :
    populateCount conf info sh b = (do
      let (sh, _) ← sh.count (indexId info b)
      .ok sh) := by
  rw [populateCount, if_pos (by simp [hd, hflag])]

theorem Loaded.zeroCopyBlocks_lt (hg : Loaded g₀ info) (hfirst : ZeroLineFirst g₀) : info.zeroCopyBlocks < 2 ^ 32 := by
  rw [hg.infoZero_eq hfirst, firstZeroBlocks]
  split
  next l hl => exact hg.lines.bound l (List.mem_of_find?_eq_some hl)
  next => decide

/-- A block behind the first line has its id for a content id. -/
theorem Loaded.contId_of_ge (hg : Loaded g₀ info) (hfirst : ZeroLineFirst g₀) (hb : Emitted g₀ b)
    (hid : info.zeroCopyBlocks ≤ b.blockId) : b.contId = b.blockId := by
  obtain ⟨g, g', d, b₀, b', r, hr, hn, hcont, hid', -⟩ := hb.nextBlock
  have hdraw := (Generator.nextBlock_content hn).1
  rw [hid', hcont, Generator.drawContent_of_ge, Except.ok.injEq] at hdraw
  · exact hdraw.symm
  · rwa [Generator.linhas_of_frame hr.frame_eq, ← hg.infoZero_eq hfirst]

/-- Different ids have different slots. -/
theorem statisticsIndex_injective (hz : info.zeroCopyBlocks < 2 ^ 32) (hb : b.blockId < 2 ^ 32)
    (hb' : b'.blockId < 2 ^ 32) (h : statisticsIndex info b = statisticsIndex info b') : b.blockId = b'.blockId := by
  unfold statisticsIndex toInt32 u64 at h
  split at h <;> split at h <;> omega

/-- **The slot is right only for the id where it is zero.** -/
theorem slotRight_iff (hz : info.zeroCopyBlocks < 2 ^ 32)
    (hcont : info.zeroCopyBlocks ≤ b.blockId → b.contId = b.blockId) :
    SlotRight info b ↔ b.blockId = info.zeroCopyBlocks ∧ 0 < info.duplicatedBlocks := by
  constructor
  · intro h
    have hlow := h.nonneg
    have hhigh := h.lt
    have hlabel := h.label
    -- the label puts the id above the blocks without copies, where the slot is its distance, negated
    unfold outputdistId u64 at hlabel
    unfold statisticsIndex toInt32 u64 at hlow hhigh hlabel
    split at hlow <;> omega
  · rintro ⟨heq, hdup⟩
    have hindex : statisticsIndex info b = 0 := by
      rw [statisticsIndex, heq, Nat.add_sub_cancel_left]
      rfl
    refine ⟨hindex.ge, ?_, ?_, ?_⟩
    · rw [hindex]
      exact_mod_cast hdup
    · rw [hindex, heq, outputdistId, u64]
      omega
    · rw [hindex, indexId, hcont heq.ge, heq, Nat.add_sub_cancel_left]
      rfl

/-- **The slot of `process_run`.**  When the line without copies comes first, the slot of a block with copies is in
the statistics, the one that `gen_outputdist` means and the one of `real_populate`, exactly if the id of the block is
the number of blocks without copies, and so for no block at all if the lines add up to less than `2 ^ 32` blocks.
Different ids do have different slots. -/
theorem process_slot_iff {bs n pa pc : ℕ} {file : Option (List Char)} {ld : LoadDraws}
    (hload : initializeGenerator (.mk' bs n pa pc) file ld = .ok (g₀, some info, 1)) (hfirst : ZeroLineFirst g₀)
    (hb : Emitted g₀ b) (hflag : b.flagUniqueBlock = 0) :
    (SlotRight info b ↔ b.blockId = info.zeroCopyBlocks ∧ 0 < info.duplicatedBlocks) ∧
    (g₀.blockCounts.sum < 2 ^ 32 → ¬ SlotRight info b) ∧
    ∀ b', Emitted g₀ b' → b'.flagUniqueBlock = 0 → statisticsIndex info b = statisticsIndex info b' →
      b.blockId = b'.blockId := by
  obtain ⟨hg, -⟩ := loaded_of_initialize hload
  have hz := hg.zeroCopyBlocks_lt hfirst
  have hlt := (hg.knownBlock hfirst hb).blockId_lt
  have hiff := slotRight_iff hz (hg.contId_of_ge hfirst hb)
  refine ⟨hiff, fun hsum h => ?_, fun b' hb' _ => ?_⟩
  · have hid := (hiff.mp h).1
    have hlow := (hg.blockId_of_copies hfirst hsum hb hflag).1
    omega
  · exact statisticsIndex_injective hz hlt (hg.knownBlock hfirst hb').blockId_lt

/-- The first block with copies has slot `-1`. -/
theorem plainDistribution_slot : ∃ g₀ info b,
    initializeGenerator loggedFiles.generator (some plainDistribution) plainDraws = .ok (g₀, some info, 1) ∧
      ZeroLineFirst g₀ ∧ Emitted g₀ b ∧ b.flagUniqueBlock = 0 ∧ b.blockId = 9 ∧ statisticsIndex info b = -1 ∧
      ¬ SlotRight info b := by
  obtain ⟨g₀, info, h, hg⟩ := exists_of_loadsWith (x := initializeGenerator loggedFiles.generator
    (some plainDistribution) plainDraws) (T := fun g info => g.linhas.map Linha.nrCopies = [0, 1] ∧
      okWith (getWritecontent g 0 ⟨1, 0, 0⟩) fun x => x.2.2.flagUniqueBlock = 0 ∧ x.2.2.blockId = 9 ∧
        statisticsIndex info x.2.2 = -1)
    (by decide +kernel)
  obtain ⟨hcopies, hb⟩ := of_decide_eq_true hg
  obtain ⟨⟨g, r, b⟩, hw, hb⟩ := exists_of_okWith hb
  obtain ⟨hflag, hid, hindex⟩ := of_decide_eq_true hb
  refine ⟨g₀, info, b, h, .of_copies hcopies (by decide), .next .refl hw, hflag, hid, hindex, fun hright => ?_⟩
  have hnonneg := hright.nonneg
  rw [hindex] at hnonneg
  exact absurd hnonneg (by decide)

/-- Where the ids wrap, a block with copies can have the id where the slot is right. -/
theorem wrapDistribution_slot : ∃ g₀ info b,
    initializeGenerator (.mk' 1048576 1 1 25) (some wrapDistribution) plainDraws = .ok (g₀, some info, 1) ∧
      Emitted g₀ b ∧ b.flagUniqueBlock = 0 ∧ SlotRight info b := by
  obtain ⟨g₀, info, h, hg⟩ := exists_of_loadsWith (x := initializeGenerator (.mk' 1048576 1 1 25)
    (some wrapDistribution) plainDraws) (T := fun g info => g.linhas.map Linha.nrCopies = [0, 1, 2] ∧
      info.zeroCopyBlocks = 1000 ∧ info.duplicatedBlocks = 672 ∧
      okWith (getWritecontent g 0 ⟨2, 327, 0⟩) fun x => x.2.2.flagUniqueBlock = 0 ∧ x.2.2.blockId = 1000)
    (by decide +kernel)
  obtain ⟨hcopies, hzero, hdup, hb⟩ := of_decide_eq_true hg
  obtain ⟨⟨g, r, b⟩, hw, hb⟩ := exists_of_okWith hb
  obtain ⟨hflag, hid⟩ := of_decide_eq_true hb
  have hemitted : Emitted g₀ b := .next .refl hw
  have hslot := (process_slot_iff h (.of_copies hcopies (by decide)) hemitted hflag).1.mpr
    ⟨hid.trans hzero.symm, by omega⟩
  exact ⟨g₀, info, b, h, hemitted, hflag, hslot⟩

/-! ### Population -/

/-- The blocks that `real_populate` writes in the rounds `ks`, by the draws of each round. -/
def writtenBlocks (idproc : ℕ) (draws : ℕ → Generator.Draw) : List ℕ → Generator → Exec (List BlockInfo)
  | [], _ => .ok []
  | k :: ks, g => do
    let (g, _, b) ← getWritecontent g idproc (draws k)
    let bs ← writtenBlocks idproc draws ks g
    .ok (b :: bs)

/-- The blocks with copies. -/
def withCopies (bs : List BlockInfo) : List BlockInfo := bs.filter fun b => b.flagUniqueBlock = 0

/-- How often the block that slot `i` is for is among the blocks `bs`. -/
def slotCount (info : DuplicatesInfo) (bs : List BlockInfo) (i : ℕ) : ℕ :=
  ((withCopies bs).map BlockInfo.blockId).count (outputdistId info i)

/-- The configuration without the log, under which nothing is counted. -/
def Conf.uncounted (conf : Conf) : Conf := { conf with distout := false }

/-- A run with other statistics. -/
def Sys.withStatistics (s : Sys) (statistics : List ℕ) : Sys := { s with shared := { s.shared with statistics } }

/-- `real_populate` counts the blocks with copies in their slots, and does nothing more by it: every counter grows by
how often its block is among those written, these numbers add up to the blocks with copies, `zerodups` stays, and all
the rest, the content tracker with it, is as a run leaves it that counts nothing (`t`). -/
def PopulationCounts (conf : Conf) (info : DuplicatesInfo) (idproc : ℕ) (draws : ℕ → Generator.Draw) (s t : Sys)
    (bs : List BlockInfo) : Prop :=
  ∃ statistics, realPopulate conf info idproc draws s = .ok (t.withStatistics statistics) ∧
    (∀ i < info.duplicatedBlocks,
      statistics[i]? = s.shared.statistics[i]?.map fun n => u64 (n + slotCount info bs i)) ∧
    ∑ i ∈ Finset.range info.duplicatedBlocks, slotCount info bs i = (withCopies bs).length ∧
    statistics[info.duplicatedBlocks]? = s.shared.statistics[info.duplicatedBlocks]?

section Population

variable {idproc k : ℕ} {ks : List ℕ} {draws : ℕ → Generator.Draw} {s t : Sys} {sh sh' : Shared} {bs : List BlockInfo}
  {st st' slots : List ℕ}

/-- What `populateCount` does to the statistics. -/
def countStatistics (conf : Conf) (info : DuplicatesInfo) (st : List ℕ) (b : BlockInfo) : Exec (List ℕ) := do
  let sh ← populateCount conf info ⟨st, []⟩ b
  .ok sh.statistics

/-- It does nothing else. -/
theorem populateCount_eq_countStatistics (sh : Shared) (b : BlockInfo) : populateCount conf info sh b = (do
    let st ← countStatistics conf info sh.statistics b
    .ok { sh with statistics := st }) := by
  unfold countStatistics populateCount
  split
  · unfold Shared.count
    dsimp only
    cases sh.statistics[indexId info b]? <;> rfl
  · rfl

theorem populateCount_uncounted (sh : Shared) (b : BlockInfo) :
    populateCount conf.uncounted info sh b = .ok sh := rfl

/-- The tracker is written whatever the statistics are. -/
theorem Shared.track_statistics {row blk : ℕ} (h : sh.track conf row blk b = .ok sh') (st : List ℕ) :
    Shared.track conf { sh with statistics := st } row blk b = .ok { sh' with statistics := st } := by
  unfold Shared.track at h ⊢
  split at h
  next hoff =>
    cases h
    rw [if_pos hoff]
  next hon =>
    rw [if_neg hon]
    split at h
    next hin =>
      cases h
      rw [if_pos hin]
    next => cases h

theorem Sys.store_withStatistics {off : ℕ} {content : List UInt8} (h : s.store conf idproc off content b = .ok t)
    (st : List ℕ) : (s.withStatistics st).store conf idproc off content b = .ok (t.withStatistics st) := by
  obtain ⟨sh, hsh, h⟩ := bind_eq_ok.mp h
  cases h
  exact bind_eq_ok.mpr ⟨_, Shared.track_statistics hsh st, rfl⟩

/-- One round, beside one that counts nothing. -/
theorem populateBlock_counted (h : populateBlock conf.uncounted info idproc draws s k = .ok t) :
    ∃ r b, getWritecontent s.gen idproc (draws k) = .ok (t.gen, r, b) ∧
      ∀ st, populateBlock conf info idproc draws (s.withStatistics st) k = (do
        let st ← countStatistics conf info st b
        .ok (t.withStatistics st)) := by
  simp only [populateBlock, populateCount_uncounted, bind_ok, bind_eq_ok] at h
  obtain ⟨⟨gen, r, b⟩, hw, content, hcontent, h⟩ := h
  have hcontent : gen.contentAt r conf.blockSize = .ok content := hcontent
  have hstore : Sys.store conf { s with gen } idproc (k * conf.blockSize) content b = .ok t := h
  have hgen : t.gen = gen := (Sys.store_gen hstore).1
  refine ⟨r, b, hgen ▸ hw, fun st => ?_⟩
  have hwritten : getWritecontent (s.withStatistics st).gen idproc (draws k) = .ok (gen, r, b) := hw
  have hstatistics : (s.withStatistics st).shared.statistics = st := rfl
  rw [populateBlock, hwritten, bind_ok]
  dsimp only
  rw [populateCount_eq_countStatistics, hstatistics]
  cases countStatistics conf info st b with
  | error e => rfl
  | ok st' =>
    rw [bind_ok, bind_ok, bind_ok, hcontent, bind_ok]
    exact Sys.store_withStatistics hstore st'

/-- **Population beside one that counts nothing**: it writes the same blocks, and the statistics are all the
difference. -/
theorem foldlM_populateBlock_counted
    (h : ks.foldlM (populateBlock conf.uncounted info idproc draws) s = .ok t) :
    ∃ bs, writtenBlocks idproc draws ks s.gen = .ok bs ∧
      ∀ st, ks.foldlM (populateBlock conf info idproc draws) (s.withStatistics st) = (do
        let st ← bs.foldlM (countStatistics conf info) st
        .ok (t.withStatistics st)) := by
  induction ks generalizing s with
  | nil =>
    obtain rfl := foldlM_nil_eq_ok.mp h
    exact ⟨[], rfl, fun st => rfl⟩
  | cons k ks ih =>
    obtain ⟨s₁, hs₁, h⟩ := foldlM_cons_eq_ok.mp h
    obtain ⟨r, b, hw, hcounted⟩ := populateBlock_counted hs₁
    obtain ⟨bs, hbs, hrest⟩ := ih h
    refine ⟨b :: bs, bind_eq_ok.mpr ⟨_, hw, bind_eq_ok.mpr ⟨bs, hbs, rfl⟩⟩, fun st => ?_⟩
    rw [List.foldlM_cons, hcounted, List.foldlM_cons]
    cases hst : countStatistics conf info st b with
    | error e => rfl
    | ok st' =>
      rw [bind_ok, bind_ok, bind_ok]
      exact hrest st'

theorem getWritecontent_reach {g g' : Generator} {d : Generator.Draw} {r : ModelRef} (hr : Generator.Reach g₀ g)
    (h : getWritecontent g idproc d = .ok (g', r, b)) : Generator.Reach g₀ g' := by
  obtain ⟨⟨g₁, r₁, b₁⟩, hn, h⟩ := bind_eq_ok.mp h
  cases h
  exact hr.next hn

/-- The blocks written are blocks that the generator emits. -/
theorem emitted_of_writtenBlocks {g : Generator} (hr : Generator.Reach g₀ g)
    (h : writtenBlocks idproc draws ks g = .ok bs) : ∀ b ∈ bs, Emitted g₀ b := by
  induction ks generalizing g bs with
  | nil =>
    cases h
    simp
  | cons k ks ih =>
    obtain ⟨⟨g₁, r, b⟩, hw, h⟩ := bind_eq_ok.mp h
    obtain ⟨bs', hbs', h⟩ := bind_eq_ok.mp h
    cases h
    intro b' hb'
    rcases List.mem_cons.mp hb' with rfl | hb'
    · exact .next hr hw
    · exact ih (getWritecontent_reach hr hw) hbs' b' hb'

/-- The counters `st'` are the counters `st` after those in `slots` have been counted. -/
def Grown (st slots st' : List ℕ) : Prop := ∀ i, st'[i]? = st[i]?.map fun n => u64 (n + slots.count i)

theorem Grown.nil (h : ∀ n ∈ st, n < 2 ^ 64) : Grown st [] st := by
  intro i
  cases hi : st[i]? with
  | none => rfl
  | some n =>
    have hn : n % 2 ^ 64 = n := Nat.mod_eq_of_lt (h n (List.mem_of_getElem? hi))
    rw [Option.map_some, List.count_nil, Nat.add_zero, u64, hn]

theorem Grown.length_eq (h : Grown st slots st') : st'.length = st.length := by
  have key : ∀ i, i < st'.length ↔ i < st.length := by
    intro i
    rw [← not_iff_not, not_lt, not_lt, ← List.getElem?_eq_none_iff, ← List.getElem?_eq_none_iff, h i,
      Option.map_eq_none_iff]
  have h₁ := key st'.length
  have h₂ := key st.length
  omega

/-- One more block is counted. -/
theorem Grown.countStatistics (hd : conf.distout = true) (hflag : b.flagUniqueBlock = 0) (h : Grown st slots st')
    (hlt : indexId info b < st.length) :
    ∃ st'', countStatistics conf info st' b = .ok st'' ∧ Grown st (slots ++ [indexId info b]) st'' := by
  have hn : ∃ n, st[indexId info b]? = some n := ⟨_, List.getElem?_eq_getElem hlt⟩
  obtain ⟨n, hn⟩ := hn
  have hn' : st'[indexId info b]? = some (u64 (n + slots.count (indexId info b))) := by rw [h, hn, Option.map_some]
  refine ⟨st'.set (indexId info b) (u64 (u64 (n + slots.count (indexId info b)) + 1)), ?_, fun i => ?_⟩
  · simp only [Dedisbench.countStatistics, populateCount_of_copies hd hflag, Shared.count, hn', bind_ok]
  · rw [List.getElem?_set, List.count_append, List.count_singleton]
    by_cases hi : indexId info b = i
    · subst hi
      rw [if_pos rfl, if_pos (h.length_eq ▸ hlt), hn, Option.map_some, if_pos (by simp)]
      simp [u64, Nat.add_assoc]
    · rw [if_neg hi, if_neg (by simpa using hi), Nat.add_zero, h]

/-- **What population counts**, when every slot is a counter. -/
theorem foldlM_countStatistics (hd : conf.distout = true) (h : Grown st slots st')
    (hbs : ∀ b ∈ withCopies bs, indexId info b < st.length) :
    ∃ st'', bs.foldlM (countStatistics conf info) st' = .ok st'' ∧
      Grown st (slots ++ (withCopies bs).map (indexId info)) st'' := by
  induction bs generalizing slots st' with
  | nil => exact ⟨st', rfl, by rwa [withCopies, List.filter_nil, List.map_nil, List.append_nil]⟩
  | cons b bs ih =>
    by_cases hflag : b.flagUniqueBlock = 0
    · have hcons : withCopies (b :: bs) = b :: withCopies bs := List.filter_cons_of_pos (by simpa using hflag)
      rw [hcons] at hbs ⊢
      obtain ⟨st₁, hst₁, hgrown⟩ := h.countStatistics hd hflag (hbs b List.mem_cons_self)
      obtain ⟨st₂, hst₂, hgrown⟩ := ih hgrown fun b hb => hbs b (List.mem_cons_of_mem _ hb)
      refine ⟨st₂, by rw [List.foldlM_cons, hst₁, bind_ok, hst₂], ?_⟩
      rwa [List.append_assoc, List.singleton_append] at hgrown
    · have hcons : withCopies (b :: bs) = withCopies bs := List.filter_cons_of_neg (by simpa using hflag)
      have hskip : countStatistics conf info st' b = .ok st' := by
        rw [Dedisbench.countStatistics, populateCount, if_neg (by simp [hflag])]
        rfl
      rw [hcons] at hbs ⊢
      rw [List.foldlM_cons, hskip, bind_ok]
      exact ih h hbs

theorem mem_withCopies : b ∈ withCopies bs ↔ b ∈ bs ∧ b.flagUniqueBlock = 0 := by
  rw [withCopies, List.mem_filter, decide_eq_true_eq]

theorem outputdistId_eq {i : ℕ} (hz : info.zeroCopyBlocks < 2 ^ 32) (hi : i < 2 ^ 32) :
    outputdistId info i = info.zeroCopyBlocks + i := by
  unfold outputdistId u64
  omega

/-- The numbers of the slots add up to the blocks with copies exactly if all of these have a slot. -/
theorem sum_slotCount (hz : info.zeroCopyBlocks < 2 ^ 32) (hdup : info.duplicatedBlocks < 2 ^ 32)
    (bs : List BlockInfo) :
    ∑ i ∈ Finset.range info.duplicatedBlocks, slotCount info bs i = (withCopies bs).length ↔
      ∀ b ∈ bs, b.flagUniqueBlock = 0 →
        info.zeroCopyBlocks ≤ b.blockId ∧ b.blockId < info.zeroCopyBlocks + info.duplicatedBlocks := by
  have hcongr : ∑ i ∈ Finset.range info.duplicatedBlocks, slotCount info bs i =
      ∑ i ∈ Finset.range info.duplicatedBlocks,
        ((withCopies bs).map BlockInfo.blockId).count (info.zeroCopyBlocks + i) := by
    apply Finset.sum_congr rfl
    intro i hi
    have hlt := Finset.mem_range.mp hi
    rw [slotCount, outputdistId_eq hz (by omega)]
  rw [hcongr, ← List.length_map (f := BlockInfo.blockId), Occur.sum_count_range_eq_length, List.forall_mem_map]
  constructor
  · exact fun h b hb hflag => h b (mem_withCopies.mpr ⟨hb, hflag⟩)
  · intro h b hb
    obtain ⟨hb, hflag⟩ := mem_withCopies.mp hb
    exact h b hb hflag

/-- A block that has a slot is counted in it. -/
theorem count_indexId {i : ℕ} (hz : info.zeroCopyBlocks < 2 ^ 32) (hi : i < 2 ^ 32)
    (hbs : ∀ b ∈ withCopies bs, info.zeroCopyBlocks ≤ b.blockId ∧ b.blockId < 2 ^ 32 ∧ b.contId = b.blockId) :
    ((withCopies bs).map (indexId info)).count i = slotCount info bs i := by
  have hids : (withCopies bs).map BlockInfo.blockId =
      ((withCopies bs).map (indexId info)).map (info.zeroCopyBlocks + ·) := by
    rw [List.map_map]
    apply List.map_congr_left
    intro b hb
    obtain ⟨hle, hlt, hcont⟩ := hbs b hb
    have hindex : indexId info b = b.blockId - info.zeroCopyBlocks := by
      rw [indexId, hcont, u64]
      omega
    rw [Function.comp_apply, hindex, Nat.add_sub_cancel' hle]
  rw [slotCount, outputdistId_eq hz hi, hids, List.count_map_of_injective _ _ (add_right_injective _)]

/-- Blocks with copies that all have a slot are counted in their slots, and the counter of `zerodups` is left. -/
theorem foldlM_countStatistics_slots (hd : conf.distout = true) (hz : info.zeroCopyBlocks < 2 ^ 32)
    (hdup : info.duplicatedBlocks < 2 ^ 32) (hlayout : st.length = info.duplicatedBlocks + 1)
    (h64 : ∀ n ∈ st, n < 2 ^ 64) (hbs : ∀ b ∈ withCopies bs, info.zeroCopyBlocks ≤ b.blockId ∧
      b.blockId < info.zeroCopyBlocks + info.duplicatedBlocks ∧ b.blockId < 2 ^ 32 ∧ b.contId = b.blockId) :
    ∃ st', bs.foldlM (countStatistics conf info) st = .ok st' ∧
      (∀ i < info.duplicatedBlocks, st'[i]? = st[i]?.map fun n => u64 (n + slotCount info bs i)) ∧
      st'[info.duplicatedBlocks]? = st[info.duplicatedBlocks]? := by
  have hindex : ∀ b ∈ withCopies bs, indexId info b < info.duplicatedBlocks := by
    intro b hb
    obtain ⟨hle, hhigh, hlt, hcont⟩ := hbs b hb
    rw [indexId, hcont, u64]
    omega
  have hbound : ∀ b ∈ withCopies bs, indexId info b < st.length := by
    intro b hb
    have hlt := hindex b hb
    omega
  obtain ⟨st', hfold, hgrown⟩ := foldlM_countStatistics hd (.nil h64) hbound
  rw [List.nil_append] at hgrown
  refine ⟨st', hfold, fun i hi => ?_, ?_⟩
  · rw [hgrown i, count_indexId hz (by omega) fun b hb => ?_]
    obtain ⟨hle, -, hlt, hcont⟩ := hbs b hb
    exact ⟨hle, hlt, hcont⟩
  · -- no slot is that of `zerodups`
    have hnot : info.duplicatedBlocks ∉ (withCopies bs).map (indexId info) := by
      intro hmem
      obtain ⟨b, hb, heq⟩ := List.mem_map.mp hmem
      have hlt := hindex b hb
      omega
    have hsame := Grown.nil h64 info.duplicatedBlocks
    rw [List.count_nil] at hsame
    rw [hgrown, List.count_eq_zero_of_not_mem hnot, ← hsame]

/-- **What population counts.**  From any statistics of the layout that `loadmmap` makes, let a run that counts
nothing come to its end.  The run that counts writes the same blocks, and counts those with copies in their slots, and
does nothing else by it, exactly if all of these have a slot.  If the lines add up to less than `2 ^ 32` blocks, the
one block that has none is the last. -/
theorem population_counts_iff {file : Option (List Char)} {ld : LoadDraws}
    (hload : initializeGenerator conf.generator file ld = .ok (g₀, some info, 1)) (hfirst : ZeroLineFirst g₀)
    (hd : conf.distout = true) (hr : Generator.Reach g₀ s.gen)
    (hlayout : s.shared.statistics.length = info.duplicatedBlocks + 1) (h64 : ∀ n ∈ s.shared.statistics, n < 2 ^ 64)
    (hrun : realPopulate conf.uncounted info idproc draws s = .ok t) :
    ∃ bs, writtenBlocks idproc draws (List.range conf.rounds) s.gen = .ok bs ∧
      (PopulationCounts conf info idproc draws s t bs ↔ ∀ b ∈ bs, b.flagUniqueBlock = 0 →
        info.zeroCopyBlocks ≤ b.blockId ∧ b.blockId < info.zeroCopyBlocks + info.duplicatedBlocks) ∧
      (g₀.blockCounts.sum < 2 ^ 32 → (PopulationCounts conf info idproc draws s t bs ↔
        ∀ b ∈ bs, b.flagUniqueBlock = 0 → b.blockId ≠ info.zeroCopyBlocks + info.duplicatedBlocks)) := by
  obtain ⟨hg, -⟩ := loaded_of_initialize hload
  have hz := hg.zeroCopyBlocks_lt hfirst
  have hdup := hg.duplicatedBlocks_lt
  obtain ⟨bs, hbs, hcounted⟩ := foldlM_populateBlock_counted hrun
  have hemitted := emitted_of_writtenBlocks hr hbs
  have hiff : PopulationCounts conf info idproc draws s t bs ↔ ∀ b ∈ bs, b.flagUniqueBlock = 0 →
      info.zeroCopyBlocks ≤ b.blockId ∧ b.blockId < info.zeroCopyBlocks + info.duplicatedBlocks := by
    constructor
    · rintro ⟨statistics, -, -, hsum, -⟩
      exact (sum_slotCount hz hdup bs).mp hsum
    · intro hslots
      obtain ⟨statistics, hfold, hcount, hrest⟩ :=
        foldlM_countStatistics_slots hd hz hdup hlayout h64 fun b hb => by
          obtain ⟨hb, hflag⟩ := mem_withCopies.mp hb
          obtain ⟨hle, hhigh⟩ := hslots b hb hflag
          exact ⟨hle, hhigh, (hg.knownBlock hfirst (hemitted b hb)).blockId_lt,
            hg.contId_of_ge hfirst (hemitted b hb) hle⟩
      refine ⟨statistics, ?_, hcount, (sum_slotCount hz hdup bs).mpr hslots, hrest⟩
      have hpopulate := hcounted s.shared.statistics
      rw [hfold, bind_ok] at hpopulate
      exact hpopulate
  refine ⟨bs, hbs, hiff, fun hsum => hiff.trans (forall₂_congr fun b hb => ?_)⟩
  refine imp_congr_right fun hflag => ?_
  obtain ⟨hlow, hhigh⟩ := hg.blockId_of_copies hfirst hsum (hemitted b hb) hflag
  omega

end Population

/-- Blocks with copies and without, and a run that counts them in their slots. -/
theorem plainDistribution_counts : ∃ g₀ info t bs,
    initializeGenerator loggedFiles.generator (some plainDistribution) plainDraws = .ok (g₀, some info, 1) ∧
      realPopulate loggedFiles.uncounted info 0 (fun k => ⟨k, 0, k⟩) (sampleSys loggedFiles info g₀) = .ok t ∧
      PopulationCounts loggedFiles info 0 (fun k => ⟨k, 0, k⟩) (sampleSys loggedFiles info g₀) t bs := by
  obtain ⟨g₀, info, h, hg⟩ := exists_of_loadsWith (x := initializeGenerator loggedFiles.generator
    (some plainDistribution) plainDraws) (T := fun g info => g.linhas.map Linha.nrCopies = [0, 1] ∧
      info.zeroCopyBlocks = 8 ∧ info.duplicatedBlocks = 4 ∧
      okWith (realPopulate loggedFiles.uncounted info 0 (fun k => ⟨k, 0, k⟩) (sampleSys loggedFiles info g))
        (fun _ => true) ∧
      okWith (writtenBlocks 0 (fun k => ⟨k, 0, k⟩) (List.range 16) g) fun bs =>
        ∀ b ∈ bs, b.flagUniqueBlock = 0 → 8 ≤ b.blockId ∧ b.blockId < 8 + 4)
    (by decide +kernel)
  obtain ⟨hcopies, hzero, hdup, hrun, hbs⟩ := of_decide_eq_true hg
  obtain ⟨t, hrun, -⟩ := exists_of_okWith hrun
  obtain ⟨bs, hbs, hslots⟩ := exists_of_okWith hbs
  have hstatistics : (sampleSys loggedFiles info g₀).shared.statistics = List.replicate 5 0 := by
    rw [sampleSys, loadmmap, hdup]
    rfl
  obtain ⟨bs', hbs', hiff, -⟩ := population_counts_iff h (.of_copies hcopies (by decide)) rfl .refl
    (by rw [hstatistics, hdup]; rfl) (by rw [hstatistics]; decide) hrun
  obtain rfl := Except.ok.inj (hbs.symm.trans hbs')
  refine ⟨g₀, info, t, bs, h, hrun, hiff.mpr ?_⟩
  rw [hzero, hdup]
  exact of_decide_eq_true hslots

/-- A run that writes the last block sixteen times, and counts it in `zerodups`. -/
theorem plainDistribution_lastBlock : ∃ g₀ info t s' bs,
    initializeGenerator loggedFiles.generator (some plainDistribution) plainDraws = .ok (g₀, some info, 1) ∧
      ZeroLineFirst g₀ ∧
      realPopulate loggedFiles.uncounted info 0 (fun _ => ⟨1, 3, 0⟩) (sampleSys loggedFiles info g₀) = .ok t ∧
      realPopulate loggedFiles info 0 (fun _ => ⟨1, 3, 0⟩) (sampleSys loggedFiles info g₀) = .ok s' ∧
      s'.shared.statistics = [0, 0, 0, 0, 16] ∧
      writtenBlocks 0 (fun _ => ⟨1, 3, 0⟩) (List.range loggedFiles.rounds) g₀ = .ok bs ∧
      (∀ b ∈ bs, b.flagUniqueBlock = 0 ∧ b.blockId = 12) ∧
      ¬ PopulationCounts loggedFiles info 0 (fun _ => ⟨1, 3, 0⟩) (sampleSys loggedFiles info g₀) t bs := by
  obtain ⟨g₀, info, h, hg⟩ := exists_of_loadsWith (x := initializeGenerator loggedFiles.generator
    (some plainDistribution) plainDraws) (T := fun g info => g.linhas.map Linha.nrCopies = [0, 1] ∧
      info.duplicatedBlocks = 4 ∧
      okWith (realPopulate loggedFiles.uncounted info 0 (fun _ => ⟨1, 3, 0⟩) (sampleSys loggedFiles info g))
        (fun _ => true) ∧
      okWith (realPopulate loggedFiles info 0 (fun _ => ⟨1, 3, 0⟩) (sampleSys loggedFiles info g))
        (fun s' => s'.shared.statistics = [0, 0, 0, 0, 16]) ∧
      okWith (writtenBlocks 0 (fun _ => ⟨1, 3, 0⟩) (List.range loggedFiles.rounds) g) fun bs =>
        ∀ b ∈ bs, b.flagUniqueBlock = 0 ∧ b.blockId = 12)
    (by decide +kernel)
  obtain ⟨hcopies, hdup, hrun, hcounted, hbs⟩ := of_decide_eq_true hg
  obtain ⟨t, hrun, -⟩ := exists_of_okWith hrun
  obtain ⟨s', hcounted, hstatistics⟩ := exists_of_okWith hcounted
  obtain ⟨bs, hbs, hids⟩ := exists_of_okWith hbs
  have hstatistics : s'.shared.statistics = [0, 0, 0, 0, 16] := of_decide_eq_true hstatistics
  refine ⟨g₀, info, t, s', bs, h, .of_copies hcopies (by decide), hrun, hcounted, hstatistics, hbs,
    of_decide_eq_true hids, ?_⟩
  rintro ⟨statistics, hrun', -, -, hzerodups⟩
  obtain rfl := Except.ok.inj (hcounted.symm.trans hrun')
  have hstart : (sampleSys loggedFiles info g₀).shared.statistics[4]? = some 0 := by
    rw [sampleSys, loadmmap, hdup]
    rfl
  have hend : statistics = [0, 0, 0, 0, 16] := hstatistics
  rw [hdup, hstart, hend] at hzerodups
  exact absurd hzerodups (by decide)

end Dedisbench
