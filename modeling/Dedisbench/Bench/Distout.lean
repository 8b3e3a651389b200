import Mathlib.Order.Interval.Finset.Nat
import Dedisbench.Lib.Occur
import Dedisbench.Bench.Mixed
import Dedisbench.Bench.OutputDist

/-!
# The distribution that is logged

With `distout`, `real_populate` and `process_run` count the blocks that they write, and `gen_outputdist` turns the
counters into a distribution.  They do not agree on which counter a block has.  `real_populate` counts a block with
copies at its place behind the blocks without, so that the last one is counted in `zerodups`, and a block without
copies not at all; `process_run` counts a block without copies in `zerodups`, and one with copies at the negative of
its place.

`distribution_log_exact` says for which sequences of blocks the log is the distribution that was written.
-/

namespace Dedisbench

open ExceptRun Occur

variable {conf : Conf} {info : DuplicatesInfo} {g₀ : Generator} {b : BlockInfo} {pb wb : List BlockInfo}

/-! ### Blocks that are written -/

/-- The write of a block by its process, as far as the counters go. -/
def accountWrite (conf : Conf) (info : DuplicatesInfo) (s : (ℕ → Proc) × Shared) (b : BlockInfo) :
    Exec ((ℕ → Proc) × Shared) := do
  let (p, sh) ← processCount conf info (s.1 b.procId) s.2 b
  .ok (Function.update s.1 b.procId p, sh)

/-- The accounting of a run that populates with the blocks `pb` and then writes the blocks `wb`. -/
def account (conf : Conf) (info : DuplicatesInfo) (s : (ℕ → Proc) × Shared) (pb wb : List BlockInfo) :
    Exec ((ℕ → Proc) × Shared) := do
  let sh ← pb.foldlM (populateCount conf info) s.2
  wb.foldlM (accountWrite conf info) (s.1, sh)

/-- **The log is the distribution written**: from counters at zero and an empty database, `gen_outputdist` maps each
`k` to the number of contents written exactly `k + 1` times, and the blocks add up to those written. -/
def LogExact (conf : Conf) (info : DuplicatesInfo) (procs : ℕ → Proc) (contentMap : List BlockInfo)
    (pb wb : List BlockInfo) : Prop :=
  ∃ s out, account conf info (procs, ⟨List.replicate info.duplicatedBlocks 0 ++ [0], contentMap⟩) pb wb = .ok s ∧
    genOutputdist info s.2 ∅ = .ok out ∧
    (∀ k, (Tally.valueAt out.dbpor k).toNat = occurring ((pb ++ wb).map BlockInfo.content) (k.toNat + 1)) ∧
    ∑ k ∈ out.dbpor.keys, (k.toNat + 1) * (Tally.valueAt out.dbpor k).toNat = (pb ++ wb).length

/-- A block with copies that is not the last one. -/
def InStatistics (info : DuplicatesInfo) (b : BlockInfo) : Prop :=
  b.flagUniqueBlock = 0 ∧ b.blockId < info.zeroCopyBlocks + info.duplicatedBlocks

instance : DecidablePred (InStatistics info) := fun b =>
  inferInstanceAs (Decidable (b.flagUniqueBlock = 0 ∧ b.blockId < info.zeroCopyBlocks + info.duplicatedBlocks))

/-- The sequences of blocks that are counted right. -/
structure Accountable (info : DuplicatesInfo) (pb wb : List BlockInfo) : Prop where
  /-- population writes blocks with copies only -/
  populated : ∀ b ∈ pb, b.flagUniqueBlock = 0 ∧ info.zeroCopyBlocks < b.blockId ∧
    b.blockId ≤ info.zeroCopyBlocks + info.duplicatedBlocks
  /-- the processes write blocks without copies only -/
  written : ∀ b ∈ wb, b.flagUniqueBlock = 1
  /-- what is counted in `zerodups` is written once -/
  once : (((pb ++ wb).filter fun b => ¬ InStatistics info b).map BlockInfo.content).Nodup
  /-- no counter wraps -/
  counted : ∀ b ∈ pb ++ wb, ((pb ++ wb).map BlockInfo.content).count b.content < 2 ^ 64

/-! ### What is known of a block -/

/-- What is known of every block that is emitted when the line without copies comes first. -/
structure KnownBlock (info : DuplicatesInfo) (b : BlockInfo) : Prop where
  flag : b.flagUniqueBlock = 0 ∨ b.flagUniqueBlock = 1
  contId_lt : b.contId < 2 ^ 32
  blockId_lt : b.blockId < 2 ^ 32
  contId_eq : info.zeroCopyBlocks < b.blockId → b.contId = b.blockId
  unique : b.flagUniqueBlock = 1 → 1 ≤ b.blockId ∧ b.blockId ≤ info.zeroCopyBlocks

theorem lastZeroBlocks_of_copies {F : Type} {ls : List (Linha F)} (h : ∀ l ∈ ls, l.nrCopies ≠ 0) (z : ℕ) :
    ls.foldl (fun z l => if l.nrCopies = 0 then l.nrBlocks else z) z = z := by
  induction ls generalizing z with
  | nil => rfl
  | cons l ls ih =>
    rw [List.foldl_cons, if_neg (h l List.mem_cons_self)]
    exact ih (fun l hl => h l (List.mem_cons_of_mem _ hl)) z

/-- The first line without copies is the last one, too. -/
theorem Loaded.infoZero_eq (hg : Loaded g₀ info) (hfirst : ZeroLineFirst g₀) :
    info.zeroCopyBlocks = Dedisbench.firstZeroBlocks g₀.linhas := by
  rw [hg.infoZero, hg.zeroCopies]
  cases hlin : g₀.linhas with
  | nil => rfl
  | cons l ls =>
    have hl : g₀.linhas[0]? = some l := by rw [hlin, List.getElem?_cons_zero]
    have hrest : ∀ l' ∈ ls, l'.nrCopies ≠ 0 := by
      intro l' hl' hc
      obtain ⟨i, hi⟩ := List.mem_iff_getElem?.mp hl'
      have hi' : g₀.linhas[i + 1]? = some l' := by rw [hlin, List.getElem?_cons_succ, hi]
      exact absurd ((hfirst _ _ hi').mp hc) (Nat.succ_ne_zero i)
    rw [← hlin, hfirst.firstZeroBlocks hl, hlin, lastZeroBlocks, List.foldl_cons, if_pos ((hfirst 0 l hl).mpr rfl)]
    exact lastZeroBlocks_of_copies hrest _

theorem Emitted.nextBlock (h : Emitted g₀ b) : ∃ g g' d b₀ b' r, Generator.Reach g₀ g ∧
    g.nextBlock d b₀ = .ok (g', r, b') ∧ b'.contId = b.contId ∧ b'.blockId = b.blockId ∧
      b'.flagUniqueBlock = b.flagUniqueBlock := by
  obtain ⟨g, g', idproc, d, r, hr, h⟩ := h
  rw [getWritecontent, bind_eq_ok] at h
  obtain ⟨⟨g₁, r₁, b'⟩, hn, h⟩ := h
  cases h
  exact ⟨g, g', d, _, b', r, hr, hn, rfl, rfl, rfl⟩

theorem Loaded.knownBlock (hg : Loaded g₀ info) (hfirst : ZeroLineFirst g₀) (h : Emitted g₀ b) :
    KnownBlock info b := by
  obtain ⟨g, g', d, b₀, b', r, hr, hn, hcont, hid, hflag⟩ := h.nextBlock
  have hlt := Generator.nextBlock_ids_lt hn
  have hdraw := (Generator.nextBlock_content hn).1
  obtain ⟨l, pos, ci, res, hl, hpos, -, -, hb'⟩ := Generator.nextBlock_eq_ok.mp hn
  obtain ⟨i, hi⟩ := Generator.getLinha_mem hl
  have hlin := Generator.linhas_of_frame hr.frame_eq
  rw [hlin] at hi
  obtain ⟨h1, hle⟩ := Generator.getRandomBlockFromLine_le hpos
  have hblock : b'.blockId = u32 (pos + l.nrBase) := by rw [hb']
  have hcopies : b'.flagUniqueBlock = if l.nrCopies = 0 then 1 else 0 := by rw [hb']
  rw [hcont, hid] at hlt
  refine ⟨?_, hlt.1, hlt.2, fun hbeyond => ?_, fun hone => ?_⟩
  · rw [← hflag, hcopies]
    split
    · exact .inr rfl
    · exact .inl rfl
  · -- the content id of a block beyond the first line is its id
    rw [hid, hcont, Generator.drawContent_of_ge, Except.ok.injEq] at hdraw
    · exact hdraw.symm
    · rw [hlin, ← hg.infoZero_eq hfirst]
      exact hbeyond.le
  · have hc : l.nrCopies = 0 := by
      by_contra hc
      rw [← hflag, hcopies, if_neg hc] at hone
      cases hone
    obtain rfl := (hfirst i l hi).mp hc
    have hbase := hg.lines.base hi
    rw [Spans.start_zero] at hbase
    have hbound := hg.lines.bound l (List.mem_of_getElem? hi)
    have hpos' : b.blockId = pos := by
      rw [← hid, hblock, hbase]
      exact u32_of_lt (lt_of_le_of_lt hle hbound)
    rw [hg.infoZero_eq hfirst, hfirst.firstZeroBlocks hi]
    omega

/-- A block with copies lies behind the line without, if the ids do not wrap. -/
theorem Loaded.blockId_of_copies (hg : Loaded g₀ info) (hfirst : ZeroLineFirst g₀)
    (hsum : g₀.blockCounts.sum < 2 ^ 32) (h : Emitted g₀ b) (hflag : b.flagUniqueBlock = 0) :
    info.zeroCopyBlocks < b.blockId ∧ b.blockId ≤ info.zeroCopyBlocks + info.duplicatedBlocks := by
  obtain ⟨g, g', d, b₀, b', r, hr, hn, -, hid, hflag'⟩ := h.nextBlock
  obtain ⟨i, l, pos, hi, h1, hle, hblock, -, hcopies⟩ := hg.nextBlock_line hsum hr hn
  have hc : l.nrCopies ≠ 0 := by
    intro hc
    rw [hflag', hflag, if_pos hc] at hcopies
    cases hcopies
  have hids : b.blockId ∈ l.ids := by
    rw [← hid, hblock]
    exact ⟨by omega, by omega⟩
  have hlow := hg.firstZeroBlocks_lt hfirst hsum hi hc hids
  have hhigh := hg.lines.ids_le hsum hi
  have htotal : g₀.totalUniqueBlocks = g₀.blockCounts.sum := by rw [hg.total, u32_of_lt hsum]
  have hzero := hg.infoZero_eq hfirst
  have hsum_eq := hg.zero_add_duplicated hsum
  have hmem : b.blockId ≤ l.nrBase + l.nrBlocks := hids.2
  have hsum' : l.nrBase + l.nrBlocks ≤ g₀.blockCounts.sum := hhigh
  omega

theorem Loaded.duplicatedBlocks_lt (hg : Loaded g₀ info) : info.duplicatedBlocks < 2 ^ 32 := by
  rw [hg.infoDuplicated]
  exact u32_lt _

/-- If the line without copies comes first, and the ids do not wrap, no counter lies in the rows of the tracker. -/
theorem Loaded.countersApart (hg : Loaded g₀ info) (hfirst : ZeroLineFirst g₀) (hsum : g₀.blockCounts.sum < 2 ^ 32) :
    CountersApart conf info g₀ := by
  intro _ _ b hb hflag
  obtain ⟨hlow, hhigh⟩ := hg.blockId_of_copies hfirst hsum hb hflag
  have hknown := hg.knownBlock hfirst hb
  have hlt := hknown.blockId_lt
  have hdup := hg.duplicatedBlocks_lt
  have hpopulate : indexId info b ≤ info.duplicatedBlocks := by
    rw [indexId, hknown.contId_eq hlow, u64]
    omega
  -- an index is not negative only where the difference takes more than 31 bits, and then it has fewer
  have hprocess : 0 ≤ statisticsIndex info b → (statisticsIndex info b).toNat ≤ info.duplicatedBlocks := by
    have hword : u64 (info.zeroCopyBlocks + 2 ^ 64 - b.blockId) % 2 ^ 32 =
        2 ^ 32 - (b.blockId - info.zeroCopyBlocks) := by
      rw [u64]
      omega
    intro hpos
    rw [statisticsIndex, toInt32, hword] at hpos ⊢
    obtain ⟨d, hd⟩ : ∃ d, d = b.blockId - info.zeroCopyBlocks := ⟨_, rfl⟩
    rw [← hd] at hpos ⊢
    split at hpos
    next hhalf =>
      rw [if_pos hhalf]
      omega
    next hhalf =>
      omega
  exact ⟨fun hin => absurd hin.1 (by omega), fun hpos hin => absurd hin.1 (by have := hprocess hpos; omega)⟩

/-! ### The counters -/

/-- The counter of a block: its place behind the blocks without copies, or `zerodups`. -/
def slotOf (info : DuplicatesInfo) (b : BlockInfo) : ℕ :=
  if InStatistics info b then b.blockId - info.zeroCopyBlocks else info.duplicatedBlocks

/-- The counters, `m` of them and `zerodups`, after those in `slots` have been counted. -/
def counters (m : ℕ) (slots : List ℕ) : List ℕ := (List.range (m + 1)).map fun i => u64 (slots.count i)

/-- A block that `real_populate` counts where it should. -/
def InRange (info : DuplicatesInfo) (b : BlockInfo) : Prop :=
  info.zeroCopyBlocks < b.blockId ∧ b.blockId ≤ info.zeroCopyBlocks + info.duplicatedBlocks

section Counters

variable {m i : ℕ} {slots : List ℕ} {contentMap : List BlockInfo} {procs : ℕ → Proc} {s : (ℕ → Proc) × Shared}

theorem counters_nil (m : ℕ) : counters m [] = List.replicate m 0 ++ [0] := by
  have hzero : (fun i => u64 (([] : List ℕ).count i)) = Function.const ℕ 0 := by
    funext i
    rw [List.count_nil]
    rfl
  rw [counters, hzero, List.map_const, List.length_range, List.replicate_succ']

theorem counters_eq (m : ℕ) (slots : List ℕ) :
    counters m slots = ((List.range m).map fun i => u64 (slots.count i)) ++ [u64 (slots.count m)] := by
  rw [counters, List.range_succ, List.map_append, List.map_singleton]

/-- One more block in a counter. -/
theorem count_counters (h : i ≤ m) : Shared.count ⟨counters m slots, contentMap⟩ i =
    .ok (⟨counters m (slots ++ [i]), contentMap⟩, u64 (slots.count i + 1)) := by
  have hi : (counters m slots)[i]? = some (u64 (slots.count i)) := by
    rw [counters, List.getElem?_map, List.getElem?_range (by omega), Option.map_some]
  have hwrap : u64 (u64 (slots.count i) + 1) = u64 (slots.count i + 1) := by simp [u64]
  have hset : (counters m slots).set i (u64 (slots.count i + 1)) = counters m (slots ++ [i]) := by
    apply List.ext_getElem?
    intro j
    rw [List.getElem?_set]
    rcases eq_or_ne i j with rfl | hne
    · have hlen : i < (counters m slots).length := (List.getElem?_eq_some_iff.mp hi).1
      rw [if_pos rfl, if_pos hlen, counters, List.getElem?_map, List.getElem?_range (by omega), Option.map_some,
        List.count_append, List.count_singleton_self]
    · rw [if_neg hne, counters, counters, List.getElem?_map, List.getElem?_map]
      cases hj : (List.range (m + 1))[j]? with
      | none => rfl
      | some j' =>
        obtain rfl : j = j' := by simpa using (List.getElem?_eq_some_iff.mp hj).2
        rw [Option.map_some, Option.map_some, List.count_append, List.count_singleton, if_neg (by simpa using hne),
          Nat.add_zero]
  simp only [Shared.count, hi, hwrap, hset]

theorem slotOf_of_inRange (hr : InRange info b) (hflag : b.flagUniqueBlock = 0) :
    slotOf info b = b.blockId - info.zeroCopyBlocks := by
  by_cases h : InStatistics info b
  · rw [slotOf, if_pos h]
  · have hlt : ¬ b.blockId < info.zeroCopyBlocks + info.duplicatedBlocks := fun hlt => h ⟨hflag, hlt⟩
    have hle := hr.2
    rw [slotOf, if_neg h]
    omega

theorem slotOf_of_flag (hflag : b.flagUniqueBlock = 1) : slotOf info b = info.duplicatedBlocks := by
  rw [slotOf, if_neg]
  rintro ⟨h, -⟩
  omega

/-- **What `real_populate` counts**: a block with copies, in its counter. -/
theorem populateCount_eq (hd : conf.distout = true) (hb : KnownBlock info b)
    (hr : b.flagUniqueBlock = 0 → InRange info b) :
    populateCount conf info ⟨counters info.duplicatedBlocks slots, contentMap⟩ b =
      .ok ⟨counters info.duplicatedBlocks
        (slots ++ ([b].filter fun b => b.flagUniqueBlock = 0).map (slotOf info)), contentMap⟩ := by
  unfold populateCount
  by_cases hflag : b.flagUniqueBlock = 0
  · have hrange := hr hflag
    have hindex : indexId info b = slotOf info b := by
      have hlt := hb.blockId_lt
      have hlow := hrange.1
      rw [indexId, hb.contId_eq hlow, slotOf_of_inRange hrange hflag, u64]
      omega
    have hle : slotOf info b ≤ info.duplicatedBlocks := by
      have hhigh := hrange.2
      rw [slotOf_of_inRange hrange hflag]
      omega
    rw [if_pos (by simp [hd, hflag]), hindex, count_counters hle, bind_ok,
      List.filter_cons_of_pos (by simpa using hflag)]
    rfl
  · rw [if_neg (by simp [hflag]), List.filter_cons_of_neg (by simpa using hflag), List.filter_nil, List.map_nil,
      List.append_nil]

/-- **What `process_run` counts**: a block without copies, in `zerodups`. -/
theorem accountWrite_eq (hd : conf.distout = true) (hflag : b.flagUniqueBlock = 1) (info : DuplicatesInfo)
    (procs : ℕ → Proc) (slots : List ℕ) (contentMap : List BlockInfo) :
    ∃ procs', accountWrite conf info (procs, ⟨counters info.duplicatedBlocks slots, contentMap⟩) b =
      .ok (procs', ⟨counters info.duplicatedBlocks (slots ++ [slotOf info b]), contentMap⟩) := by
  rw [accountWrite, processCount]
  simp only [hd, hflag, slotOf_of_flag hflag, count_counters le_rfl, bind_ok]
  exact ⟨_, rfl⟩

/-- A block with copies has a negative index there, if there are not more than `2 ^ 31`. -/
theorem accountWrite_error (hd : conf.distout = true) (hdup : info.duplicatedBlocks ≤ 2 ^ 31)
    (hb : KnownBlock info b) (hr : InRange info b) (hflag : b.flagUniqueBlock = 0) :
    accountWrite conf info s b = .error .undefined := by
  have hlt := hb.blockId_lt
  have hlow := hr.1
  have hhigh := hr.2
  have hindex : statisticsIndex info b < 0 := by
    unfold statisticsIndex toInt32 u64
    split <;> omega
  rw [accountWrite, processCount]
  simp only [hd, hflag, hindex, if_true, if_false, Bool.true_eq_false, bind_error]

theorem foldlM_populateCount (hd : conf.distout = true)
    (hpb : ∀ b ∈ pb, KnownBlock info b ∧ (b.flagUniqueBlock = 0 → InRange info b)) (slots : List ℕ) :
    pb.foldlM (populateCount conf info) ⟨counters info.duplicatedBlocks slots, contentMap⟩ =
      .ok ⟨counters info.duplicatedBlocks
        (slots ++ (pb.filter fun b => b.flagUniqueBlock = 0).map (slotOf info)), contentMap⟩ := by
  induction pb generalizing slots with
  | nil => rw [List.filter_nil, List.map_nil, List.append_nil]; rfl
  | cons b pb ih =>
    obtain ⟨hb, hr⟩ := hpb b List.mem_cons_self
    rw [List.foldlM_cons, populateCount_eq hd hb hr, bind_ok, ih fun b hb => hpb b (List.mem_cons_of_mem _ hb),
      List.append_assoc, ← List.map_append, ← List.filter_append]
    rfl

theorem foldlM_accountWrite (hd : conf.distout = true) (hwb : ∀ b ∈ wb, b.flagUniqueBlock = 1) (slots : List ℕ)
    (procs : ℕ → Proc) :
    ∃ procs', wb.foldlM (accountWrite conf info) (procs, ⟨counters info.duplicatedBlocks slots, contentMap⟩) =
      .ok (procs', ⟨counters info.duplicatedBlocks (slots ++ wb.map (slotOf info)), contentMap⟩) := by
  induction wb generalizing slots procs with
  | nil => exact ⟨procs, by rw [List.map_nil, List.append_nil]; rfl⟩
  | cons b wb ih =>
    obtain ⟨procs', h⟩ := accountWrite_eq hd (hwb b List.mem_cons_self) info procs slots contentMap
    obtain ⟨procs'', h'⟩ := ih (fun b hb => hwb b (List.mem_cons_of_mem _ hb)) (slots ++ [slotOf info b]) procs'
    refine ⟨procs'', ?_⟩
    rw [List.foldlM_cons, h, bind_ok, h', List.map_cons, List.append_assoc, List.singleton_append]

/-- A run whose accounting comes to its end writes no block with copies. -/
theorem flag_of_account (hd : conf.distout = true) (hdup : info.duplicatedBlocks ≤ 2 ^ 31)
    (hwb : ∀ b ∈ wb, KnownBlock info b ∧ (b.flagUniqueBlock = 0 → InRange info b)) {s' : (ℕ → Proc) × Shared}
    (h : account conf info s pb wb = .ok s') : ∀ b ∈ wb, b.flagUniqueBlock = 1 := by
  obtain ⟨sh, -, h⟩ := bind_eq_ok.mp h
  intro b hb
  refine foldlM_establishes (P := fun _ => True) (Q := fun (b : BlockInfo) _ => b.flagUniqueBlock = 1)
    (fun _ _ _ _ _ _ => trivial)
    (fun t b t' hb _ h => ?_) (fun _ _ _ _ _ _ _ h _ => h) trivial h b hb
  refine (hwb b hb).1.flag.resolve_left fun hflag => ?_
  rw [accountWrite_error hd hdup (hwb b hb).1 ((hwb b hb).2 hflag) hflag] at h
  cases h

/-- **The counters after a run** that writes blocks without copies. -/
theorem account_eq (hd : conf.distout = true)
    (hpb : ∀ b ∈ pb, KnownBlock info b ∧ (b.flagUniqueBlock = 0 → InRange info b))
    (hwb : ∀ b ∈ wb, b.flagUniqueBlock = 1) (procs : ℕ → Proc) (contentMap : List BlockInfo) :
    ∃ procs', account conf info (procs, ⟨List.replicate info.duplicatedBlocks 0 ++ [0], contentMap⟩) pb wb =
      .ok (procs', ⟨counters info.duplicatedBlocks
        (((pb.filter fun b => b.flagUniqueBlock = 0) ++ wb).map (slotOf info)), contentMap⟩) := by
  rw [account, ← counters_nil]
  dsimp only
  rw [foldlM_populateCount hd hpb, bind_ok, List.nil_append, List.map_append]
  exact foldlM_accountWrite hd hwb _ _

end Counters

/-! ### Counters and contents -/

section Contents

variable {ws : List BlockInfo} {n i : ℕ}

/-- The content of the block that has counter `i`. -/
def contentOfSlot (info : DuplicatesInfo) (i : ℕ) : ℕ × ℕ := (info.zeroCopyBlocks + i, info.zeroCopyBlocks + i)

theorem contentOfSlot_injective (info : DuplicatesInfo) : Function.Injective (contentOfSlot info) := by
  intro i j h
  exact Nat.add_left_cancel (congrArg Prod.fst h)

/-- The blocks that have a counter of their own. -/
def withCounter (info : DuplicatesInfo) (ws : List BlockInfo) : List BlockInfo := ws.filter fun b => InStatistics info b

/-- The blocks that are counted in `zerodups`. -/
def inZerodups (info : DuplicatesInfo) (ws : List BlockInfo) : List BlockInfo := ws.filter fun b => ¬ InStatistics info b

theorem withCounter_perm (info : DuplicatesInfo) (ws : List BlockInfo) :
    (withCounter info ws ++ inZerodups info ws).Perm ws := by
  have h := List.filter_append_perm (fun b => decide (InStatistics info b)) ws
  simpa only [withCounter, inZerodups, decide_not] using h

theorem mem_withCounter : b ∈ withCounter info ws ↔ b ∈ ws ∧ InStatistics info b := by
  rw [withCounter, List.mem_filter, decide_eq_true_eq]

theorem mem_inZerodups : b ∈ inZerodups info ws ↔ b ∈ ws ∧ ¬ InStatistics info b := by
  rw [inZerodups, List.mem_filter, decide_eq_true_eq]

variable (hws : ∀ b ∈ ws, KnownBlock info b ∧ (b.flagUniqueBlock = 0 → InRange info b))

include hws

theorem content_of_inStatistics (hb : b ∈ ws) (h : InStatistics info b) :
    b.content = contentOfSlot info (slotOf info b) ∧ slotOf info b < info.duplicatedBlocks := by
  obtain ⟨hknown, hrange⟩ := hws b hb
  have hr := hrange h.1
  have hlow := hr.1
  have hhigh := h.2
  rw [slotOf_of_inRange hr h.1, BlockInfo.content, contentOfSlot, hknown.contId_eq hlow]
  refine ⟨?_, by omega⟩
  rw [Prod.mk.injEq]
  omega

/-- A block that is counted in `zerodups` has not the content of one that has a counter. -/
theorem content_ne {b' : BlockInfo} (hb : b ∈ ws) (h : InStatistics info b) (hb' : b' ∈ ws)
    (h' : ¬ InStatistics info b') : b.content ≠ b'.content := by
  intro heq
  have hid : b.blockId = b'.blockId := congrArg Prod.snd heq
  have hlow := ((hws b hb).2 h.1).1
  have hhigh := h.2
  obtain ⟨hknown, hrange⟩ := hws b' hb'
  rcases hknown.flag with hflag | hflag
  · exact h' ⟨hflag, hid ▸ hhigh⟩
  · have hle := (hknown.unique hflag).2
    omega

theorem map_content_withCounter :
    (withCounter info ws).map BlockInfo.content = ((withCounter info ws).map (slotOf info)).map (contentOfSlot info) := by
  rw [List.map_map]
  apply List.map_congr_left
  intro b hb
  obtain ⟨hb, h⟩ := mem_withCounter.mp hb
  exact (content_of_inStatistics hws hb h).1

theorem disjoint_contents :
    ∀ c ∈ (withCounter info ws).map BlockInfo.content, c ∉ (inZerodups info ws).map BlockInfo.content := by
  intro c hc hc'
  obtain ⟨b, hb, rfl⟩ := List.mem_map.mp hc
  obtain ⟨b', hb', heq⟩ := List.mem_map.mp hc'
  obtain ⟨hb, h⟩ := mem_withCounter.mp hb
  obtain ⟨hb', h'⟩ := mem_inZerodups.mp hb'
  exact content_ne hws hb h hb' h' heq.symm

theorem lt_of_mem_slots : ∀ i ∈ (withCounter info ws).map (slotOf info), i < info.duplicatedBlocks := by
  intro i hi
  obtain ⟨b, hb, rfl⟩ := List.mem_map.mp hi
  obtain ⟨hb, h⟩ := mem_withCounter.mp hb
  exact (content_of_inStatistics hws hb h).2

omit hws in
theorem map_slotOf_inZerodups : (inZerodups info ws).map (slotOf info) =
    List.replicate (inZerodups info ws).length info.duplicatedBlocks := by
  rw [List.eq_replicate_iff]
  refine ⟨List.length_map _, fun i hi => ?_⟩
  obtain ⟨b, hb, rfl⟩ := List.mem_map.mp hi
  rw [slotOf, if_neg (mem_inZerodups.mp hb).2]

omit hws in
theorem count_slots (i : ℕ) : (ws.map (slotOf info)).count i = ((withCounter info ws).map (slotOf info)).count i +
    (List.replicate (inZerodups info ws).length info.duplicatedBlocks).count i := by
  rw [← ((withCounter_perm info ws).map (slotOf info)).count_eq, List.map_append, List.count_append,
    map_slotOf_inZerodups]

omit hws in
theorem count_slots_of_lt (hi : i < info.duplicatedBlocks) :
    (ws.map (slotOf info)).count i = ((withCounter info ws).map (slotOf info)).count i := by
  rw [count_slots, List.count_replicate, if_neg (by simpa using hi.ne'), Nat.add_zero]

/-- **`zerodups` counts every block that has no counter.** -/
theorem count_slots_zerodups : (ws.map (slotOf info)).count info.duplicatedBlocks = (inZerodups info ws).length := by
  have hnot : info.duplicatedBlocks ∉ (withCounter info ws).map (slotOf info) := fun h =>
    lt_irrefl _ (lt_of_mem_slots hws _ h)
  rw [count_slots, List.count_eq_zero_of_not_mem hnot, Nat.zero_add, List.count_replicate_self]

/-- **The contents written `n` times**: those with a counter that holds `n`, and those among the others. -/
theorem occurring_contents (hn : 0 < n) : occurring (ws.map BlockInfo.content) n =
    ((List.range info.duplicatedBlocks).map fun i => (ws.map (slotOf info)).count i).count n +
      occurring ((inZerodups info ws).map BlockInfo.content) n := by
  have hcounters : occurring ((withCounter info ws).map BlockInfo.content) n =
      ((List.range info.duplicatedBlocks).map fun i => (ws.map (slotOf info)).count i).count n := by
    rw [map_content_withCounter hws, occurring_map (contentOfSlot_injective info),
      occurring_eq_count (lt_of_mem_slots hws) hn]
    congr 1
    apply List.map_congr_left
    intro i hi
    exact (count_slots_of_lt (List.mem_range.mp hi)).symm
  rw [← hcounters, ← occurring_append (disjoint_contents hws), ← List.map_append]
  exact occurring_perm ((withCounter_perm info ws).map _).symm n

/-- How often the content of a block is written: the counter tells, if it has one. -/
theorem count_content_of_inStatistics (hb : b ∈ ws) (h : InStatistics info b) :
    (ws.map BlockInfo.content).count b.content = (ws.map (slotOf info)).count (slotOf info b) := by
  obtain ⟨hcontent, hlt⟩ := content_of_inStatistics hws hb h
  have hmem : b.content ∈ (withCounter info ws).map BlockInfo.content :=
    List.mem_map_of_mem (mem_withCounter.mpr ⟨hb, h⟩)
  rw [← ((withCounter_perm info ws).map BlockInfo.content).count_eq, List.map_append, List.count_append,
    List.count_eq_zero_of_not_mem (disjoint_contents hws _ hmem), Nat.add_zero, count_slots_of_lt hlt,
    map_content_withCounter hws, hcontent, List.count_map_of_injective _ _ (contentOfSlot_injective info)]

theorem count_content_of_zerodups (hb : b ∈ ws) (h : ¬ InStatistics info b) :
    (ws.map BlockInfo.content).count b.content = ((inZerodups info ws).map BlockInfo.content).count b.content := by
  have hmem : b.content ∈ (inZerodups info ws).map BlockInfo.content :=
    List.mem_map_of_mem (mem_inZerodups.mpr ⟨hb, h⟩)
  have hnot : b.content ∉ (withCounter info ws).map BlockInfo.content := fun hmem' =>
    disjoint_contents hws _ hmem' hmem
  rw [← ((withCounter_perm info ws).map BlockInfo.content).count_eq, List.map_append, List.count_append,
    List.count_eq_zero_of_not_mem hnot, Nat.zero_add]

end Contents

/-! ### When the log is exact -/

section Exact

open Tally

variable {n : ℕ} {procs : ℕ → Proc} {contentMap : List BlockInfo}

/-- A database that is the histogram of a list whose elements occur less than `2 ^ 64` times adds up to its length. -/
theorem sum_histogram_eq {cs : List (ℕ × ℕ)} {db : PrintDb}
    (h : ∀ k, (valueAt db k).toNat = occurring cs (k.toNat + 1)) (hcount : ∀ c ∈ cs, cs.count c < 2 ^ 64) :
    ∑ k ∈ db.keys, (k.toNat + 1) * (valueAt db k).toNat = cs.length := by
  have hinj : Set.InjOn (fun k : UInt64 => k.toNat + 1) (db.keys : Set UInt64) := by
    intro k _ k' _ heq
    exact UInt64.toNat_inj.mp (Nat.succ_injective heq)
  have hmem : ∀ c ∈ cs, cs.count c ∈ db.keys.image fun k => k.toNat + 1 := by
    intro c hc
    have hpos := List.count_pos_iff.mpr hc
    have hlt := hcount c hc
    have hk : (UInt64.ofNat (cs.count c - 1)).toNat + 1 = cs.count c := by
      rw [toNat_ofNat (by omega)]
      omega
    refine Finset.mem_image.mpr ⟨.ofNat (cs.count c - 1), ?_, hk⟩
    by_contra hnot
    -- the content itself occurs that often
    have hzero := h (.ofNat (cs.count c - 1))
    rw [valueAt_of_notMem (mt Finmap.mem_keys.mpr hnot), hk, occurring, eq_comm] at hzero
    exact Finset.notMem_empty c (Finset.card_eq_zero.mp hzero ▸
      Finset.mem_filter.mpr ⟨List.mem_toFinset.mpr hc, rfl⟩)
  rw [← sum_mul_occurring hmem, Finset.sum_image hinj]
  exact Finset.sum_congr rfl fun k _ => by rw [h]

/-- What `gen_outputdist` makes of the counters after `slots`. -/
theorem genOutputdist_counters (info : DuplicatesInfo) (slots : List ℕ) (contentMap : List BlockInfo) :
    ∃ out, genOutputdist info ⟨counters info.duplicatedBlocks slots, contentMap⟩ ∅ = .ok out ∧
      out.dbpor = outputDb ((List.range info.duplicatedBlocks).map fun i => u64 (slots.count i))
        (u64 (slots.count info.duplicatedBlocks)) := by
  rw [counters_eq]
  obtain ⟨out, hout, hdb, -⟩ := @genOutputdist_eq info
    ((List.range info.duplicatedBlocks).map fun i => u64 (slots.count i))
    (u64 (slots.count info.duplicatedBlocks)) contentMap (by rw [List.length_map, List.length_range])
    (Nat.mod_lt _ (by decide))
  exact ⟨out, hout, hdb⟩

theorem u64_lt_of_mem {slots : List ℕ} {m : ℕ} : ∀ n ∈ (List.range m).map (fun i => u64 (slots.count i)), n < 2 ^ 64 := by
  intro n hn
  obtain ⟨i, -, rfl⟩ := List.mem_map.mp hn
  exact Nat.mod_lt _ (by decide)

/-- There are not more contents than pairs of ids. -/
theorem length_contents_le {N : ℕ} {cs : List (ℕ × ℕ)} (h : cs.Nodup) (hlt : ∀ c ∈ cs, c.1 < N ∧ 0 < c.2 ∧ c.2 < N) :
    cs.length ≤ N * (N - 1) := by
  have hsubset : cs.toFinset ⊆ Finset.range N ×ˢ Finset.Ioo 0 N := by
    intro c hc
    obtain ⟨hfst, hsnd⟩ := hlt c (List.mem_toFinset.mp hc)
    exact Finset.mem_product.mpr ⟨Finset.mem_range.mpr hfst, Finset.mem_Ioo.mpr hsnd⟩
  have hcard := Finset.card_le_card hsubset
  rwa [List.toFinset_card_of_nodup h, Finset.card_product, Finset.card_range, Nat.card_Ioo] at hcard

theorem length_inZerodups_le {ws : List BlockInfo}
    (hws : ∀ b ∈ ws, KnownBlock info b ∧ (b.flagUniqueBlock = 0 → InRange info b))
    (h : ((inZerodups info ws).map BlockInfo.content).Nodup) :
    (inZerodups info ws).length ≤ 2 ^ 32 * (2 ^ 32 - 1) := by
  rw [← List.length_map BlockInfo.content]
  refine length_contents_le h fun c hc => ?_
  obtain ⟨b, hb, rfl⟩ := List.mem_map.mp hc
  obtain ⟨hknown, hrange⟩ := hws b (mem_inZerodups.mp hb).1
  have hpos : 0 < b.blockId := by
    rcases hknown.flag with hflag | hflag
    · exact Nat.zero_lt_of_lt (hrange hflag).1
    · exact (hknown.unique hflag).1
  exact ⟨hknown.contId_lt, hpos, hknown.blockId_lt⟩

/-- Counters that do not wrap hold the counts. -/
theorem map_u64_count {slots : List ℕ} {m : ℕ} (h : ∀ i < m, slots.count i < 2 ^ 64) :
    ((List.range m).map fun i => u64 (slots.count i)) = (List.range m).map fun i => slots.count i :=
  List.map_congr_left fun i hi => Nat.mod_eq_of_lt (h i (List.mem_range.mp hi))

/-- There are not more counters of one value than counters. -/
theorem count_counts_le (slots : List ℕ) (m n : ℕ) : ((List.range m).map fun i => slots.count i).count n ≤ m := by
  refine List.count_le_length.trans ?_
  rw [List.length_map, List.length_range]

/-- The database that `gen_outputdist` makes of exact counters is the histogram of the contents,
if each content counted in `zerodups` is written once. -/
theorem valueAt_outputDb_eq_occurring {ws : List BlockInfo} (hdup : info.duplicatedBlocks < 2 ^ 32)
    (hws : ∀ b ∈ ws, KnownBlock info b ∧ (b.flagUniqueBlock = 0 → InRange info b))
    (hlt : ∀ i < info.duplicatedBlocks, (ws.map (slotOf info)).count i < 2 ^ 64)
    (honce : ((inZerodups info ws).map BlockInfo.content).Nodup) (k : UInt64) :
    (valueAt (outputDb ((List.range info.duplicatedBlocks).map fun i => u64 ((ws.map (slotOf info)).count i))
      (u64 ((ws.map (slotOf info)).count info.duplicatedBlocks))) k).toNat =
        occurring (ws.map BlockInfo.content) (k.toNat + 1) := by
  have hlen := length_inZerodups_le hws honce
  have hzerodups : u64 ((ws.map (slotOf info)).count info.duplicatedBlocks) = (inZerodups info ws).length := by
    rw [count_slots_zerodups hws]
    exact Nat.mod_eq_of_lt (by omega)
  have hone := count_counts_le (ws.map (slotOf info)) info.duplicatedBlocks 1
  have hmany := count_counts_le (ws.map (slotOf info)) info.duplicatedBlocks (k.toNat + 1)
  have hsucc : 0 < k.toNat + 1 := by omega
  rw [valueAt_outputDb u64_lt_of_mem, map_u64_count hlt, hzerodups, occurring_contents hws hsucc]
  split
  next hzero =>
    subst hzero
    have hall := occurring_one_eq_length.mpr honce
    rw [List.length_map] at hall
    rw [toNat_ofNat (by omega), Nat.add_comm]
    exact congrArg _ hall.symm
  next hne =>
    have hpos : k.toNat ≠ 0 := fun hk => hne (UInt64.toNat_inj.mp hk)
    have hnone : occurring ((inZerodups info ws).map BlockInfo.content) (k.toNat + 1) = 0 :=
      occurring_of_nodup honce (by omega)
    rw [toNat_ofNat (by omega), hnone]
    rfl

/-- A counter of a run that can be accounted for does not wrap: it counts one content. -/
theorem Accountable.count_slot_lt (h : Accountable info pb wb)
    (hws : ∀ b ∈ pb ++ wb, KnownBlock info b ∧ (b.flagUniqueBlock = 0 → InRange info b)) {i : ℕ}
    (hi : i < info.duplicatedBlocks) : ((pb ++ wb).map (slotOf info)).count i < 2 ^ 64 := by
  rcases Nat.eq_zero_or_pos (((pb ++ wb).map (slotOf info)).count i) with hzero | hpos
  · rw [hzero]
    decide
  · obtain ⟨b, hb, rfl⟩ := List.mem_map.mp (List.count_pos_iff.mp hpos)
    have hstat : InStatistics info b := by
      by_contra hnot
      rw [slotOf, if_neg hnot] at hi
      exact lt_irrefl _ hi
    have hlt := h.counted b hb
    rwa [count_content_of_inStatistics hws hb hstat] at hlt

theorem Accountable.logExact (hd : conf.distout = true) (hdup : info.duplicatedBlocks < 2 ^ 32)
    (hpb : ∀ b ∈ pb, KnownBlock info b) (hwb : ∀ b ∈ wb, KnownBlock info b) (h : Accountable info pb wb) :
    LogExact conf info procs contentMap pb wb := by
  have hpb' : ∀ b ∈ pb, KnownBlock info b ∧ (b.flagUniqueBlock = 0 → InRange info b) := fun b hb =>
    ⟨hpb b hb, fun _ => (h.populated b hb).2⟩
  have hwb' : ∀ b ∈ wb, KnownBlock info b ∧ (b.flagUniqueBlock = 0 → InRange info b) := by
    intro b hb
    refine ⟨hwb b hb, fun hflag => ?_⟩
    rw [h.written b hb] at hflag
    cases hflag
  have hws : ∀ b ∈ pb ++ wb, KnownBlock info b ∧ (b.flagUniqueBlock = 0 → InRange info b) := fun b hb =>
    (List.mem_append.mp hb).elim (hpb' b) (hwb' b)
  have hfilter : (pb.filter fun b => b.flagUniqueBlock = 0) = pb :=
    List.filter_eq_self.mpr fun b hb => decide_eq_true (h.populated b hb).1
  obtain ⟨procs', haccount⟩ := account_eq hd hpb' h.written procs contentMap
  rw [hfilter] at haccount
  obtain ⟨out, hout, hdb⟩ := genOutputdist_counters info ((pb ++ wb).map (slotOf info)) contentMap
  have hvalue : ∀ k, (valueAt out.dbpor k).toNat = occurring ((pb ++ wb).map BlockInfo.content) (k.toNat + 1) := by
    intro k
    rw [hdb]
    exact valueAt_outputDb_eq_occurring hdup hws (fun i hi => h.count_slot_lt hws hi) h.once k
  refine ⟨_, out, haccount, hout, hvalue, ?_⟩
  rw [sum_histogram_eq hvalue, List.length_map]
  intro c hc
  obtain ⟨b, hb, rfl⟩ := List.mem_map.mp hc
  exact h.counted b hb

/-- The counters add up to no more than what was counted. -/
theorem sum_count_range {slots : List ℕ} {m : ℕ} (h : ∀ i ∈ slots, i ≤ m) :
    ((List.range (m + 1)).map fun i => slots.count i).sum = slots.length := by
  have hcard : ∑ i ∈ Finset.range (m + 1), (slots : Multiset ℕ).count i = (slots : Multiset ℕ).card :=
    Multiset.sum_count_eq_card fun i hi => Finset.mem_range.mpr (Nat.lt_succ_of_le (h i hi))
  rw [← List.sum_toFinset _ List.nodup_range, List.toFinset_range]
  simpa only [Multiset.coe_count, Multiset.coe_card] using hcard

theorem sum_counters_le {slots : List ℕ} {m : ℕ} (h : ∀ i ∈ slots, i ≤ m) :
    (counters m slots).sum ≤ slots.length := by
  rw [← sum_count_range h]
  exact List.sum_le_sum fun i _ => Nat.mod_le _ _

/-- If nothing is missing, no counter has wrapped. -/
theorem count_lt_of_sum_counters {slots : List ℕ} {m : ℕ} (h : ∀ i ∈ slots, i ≤ m)
    (hle : slots.length ≤ (counters m slots).sum) {i : ℕ} (hi : i ≤ m) : slots.count i < 2 ^ 64 := by
  by_contra hge
  have hlt : u64 (slots.count i) < slots.count i :=
    lt_of_lt_of_le (Nat.mod_lt _ (by decide)) (Nat.le_of_not_lt hge)
  have hsum : (counters m slots).sum < ((List.range (m + 1)).map fun i => slots.count i).sum :=
    List.sum_lt_sum _ _ (fun i _ => Nat.mod_le _ _) ⟨i, List.mem_range.mpr (Nat.lt_succ_of_le hi), hlt⟩
  rw [sum_count_range h] at hsum
  omega

theorem slotOf_le (hr : b.flagUniqueBlock = 0 → InRange info b) : slotOf info b ≤ info.duplicatedBlocks := by
  by_cases h : InStatistics info b
  · have hhigh := (hr h.1).2
    rw [slotOf, if_pos h]
    omega
  · rw [slotOf, if_neg h]

/-- If the database has the number of the contents that occur once, the blocks in `zerodups` all occur once. -/
theorem nodup_of_valueAt_zero {ws : List BlockInfo} (hdup : info.duplicatedBlocks ≤ 2 ^ 31)
    (hws : ∀ b ∈ ws, KnownBlock info b ∧ (b.flagUniqueBlock = 0 → InRange info b))
    (hlt : ∀ i ≤ info.duplicatedBlocks, (ws.map (slotOf info)).count i < 2 ^ 64)
    (hzero : (valueAt (outputDb ((List.range info.duplicatedBlocks).map fun i => u64 ((ws.map (slotOf info)).count i))
      (u64 ((ws.map (slotOf info)).count info.duplicatedBlocks))) 0).toNat =
        occurring (ws.map BlockInfo.content) ((0 : UInt64).toNat + 1)) :
    ((inZerodups info ws).map BlockInfo.content).Nodup := by
  have hzerodups : u64 ((ws.map (slotOf info)).count info.duplicatedBlocks) = (inZerodups info ws).length := by
    rw [← count_slots_zerodups hws]
    exact Nat.mod_eq_of_lt (hlt _ le_rfl)
  rw [valueAt_outputDb u64_lt_of_mem, if_pos rfl, map_u64_count fun i hi => hlt i hi.le, hzerodups,
    UInt64.toNat_ofNat'] at hzero
  have hone : (0 : UInt64).toNat + 1 = 1 := rfl
  rw [hone, occurring_contents hws Nat.one_pos] at hzero
  have hle : occurring ((inZerodups info ws).map BlockInfo.content) 1 ≤ (inZerodups info ws).length := by
    refine (occurring_le _ 1).trans ((List.toFinset_card_le _).trans ?_)
    rw [List.length_map]
  have hz := hlt info.duplicatedBlocks le_rfl
  rw [count_slots_zerodups hws] at hz
  have hs := count_counts_le (ws.map (slotOf info)) info.duplicatedBlocks 1
  rw [← occurring_one_eq_length, List.length_map]
  omega

theorem LogExact.accountable (hd : conf.distout = true) (hdup : info.duplicatedBlocks ≤ 2 ^ 31)
    (hpb : ∀ b ∈ pb, KnownBlock info b ∧ (b.flagUniqueBlock = 0 → InRange info b))
    (hwb : ∀ b ∈ wb, KnownBlock info b ∧ (b.flagUniqueBlock = 0 → InRange info b))
    (h : LogExact conf info procs contentMap pb wb) : Accountable info pb wb := by
  obtain ⟨s, out, haccount, hout, hvalue, hsum⟩ := h
  have hflag := flag_of_account hd hdup hwb haccount
  obtain ⟨procs', heq⟩ := account_eq hd hpb hflag procs contentMap
  cases haccount.symm.trans heq
  obtain ⟨out', hout', hdb⟩ := genOutputdist_counters info
    (((pb.filter fun b => b.flagUniqueBlock = 0) ++ wb).map (slotOf info)) contentMap
  cases hout.symm.trans hout'
  have hslots : ∀ i ∈ ((pb.filter fun b => b.flagUniqueBlock = 0) ++ wb).map (slotOf info),
      i ≤ info.duplicatedBlocks := by
    intro i hi
    obtain ⟨b, hb, rfl⟩ := List.mem_map.mp hi
    rcases List.mem_append.mp hb with hb | hb
    · exact slotOf_le (hpb b (List.mem_filter.mp hb).1).2
    · exact slotOf_le (hwb b hb).2
  -- nothing is missing in the database, so nothing is missing in the counters
  have htotal : (pb ++ wb).length ≤ (counters info.duplicatedBlocks
      (((pb.filter fun b => b.flagUniqueBlock = 0) ++ wb).map (slotOf info))).sum := by
    have hle := @sum_outputDb_le ((List.range info.duplicatedBlocks).map fun i =>
      u64 ((((pb.filter fun b => b.flagUniqueBlock = 0) ++ wb).map (slotOf info)).count i))
      (by rw [List.length_map, List.length_range]; omega) u64_lt_of_mem
      (u64 ((((pb.filter fun b => b.flagUniqueBlock = 0) ++ wb).map (slotOf info)).count info.duplicatedBlocks))
    rw [← hdb, hsum] at hle
    rwa [counters_eq, List.sum_append, List.sum_singleton]
  have hcounted := sum_counters_le hslots
  have hfilter : (pb.filter fun b => b.flagUniqueBlock = 0) = pb := by
    apply List.filter_eq_self.mpr
    rw [← List.length_filter_eq_length_iff]
    have hle := List.length_filter_le (fun b : BlockInfo => b.flagUniqueBlock = 0) pb
    simp only [List.length_append, List.length_map] at htotal hcounted
    omega
  have hpopulated : ∀ b ∈ pb, b.flagUniqueBlock = 0 := fun b hb =>
    of_decide_eq_true (List.filter_eq_self.mp hfilter b hb)
  rw [hfilter] at hslots htotal hcounted hdb
  have hlt : ∀ i ≤ info.duplicatedBlocks, ((pb ++ wb).map (slotOf info)).count i < 2 ^ 64 := fun i hi =>
    count_lt_of_sum_counters hslots (by rw [List.length_map]; exact htotal) hi
  have hws : ∀ b ∈ pb ++ wb, KnownBlock info b ∧ (b.flagUniqueBlock = 0 → InRange info b) := fun b hb =>
    (List.mem_append.mp hb).elim (hpb b) (hwb b)
  have hzero := hvalue 0
  rw [hdb] at hzero
  have honce := nodup_of_valueAt_zero hdup hws hlt hzero
  refine ⟨fun b hb => ⟨hpopulated b hb, (hpb b hb).2 (hpopulated b hb)⟩, hflag, honce, fun b hb => ?_⟩
  by_cases hstat : InStatistics info b
  · rw [count_content_of_inStatistics hws hb hstat]
    exact hlt _ (content_of_inStatistics hws hb hstat).2.le
  · rw [count_content_of_zerodups hws hb hstat]
    exact lt_of_le_of_lt (List.nodup_iff_count_le_one.mp honce _) (by decide)

end Exact

/-! ### The accounting of a run -/

section Run

variable {s s' s₁ s₂ s₃ : Sys} {sh sh' t : Shared} {p : Proc} {draws : ℕ → ℕ → Generator.Draw}

theorem Shared.count_congr {i n : ℕ} (ht : t.statistics = sh.statistics) (h : sh.count i = .ok (sh', n)) :
    ∃ t', t.count i = .ok (t', n) ∧ t'.statistics = sh'.statistics := by
  unfold Shared.count at h ⊢
  rw [ht]
  split at h
  · cases h
    exact ⟨_, rfl, rfl⟩
  · cases h

/-- The counters do not depend on the rest of the shared memory. -/
theorem populateCount_congr (ht : t.statistics = sh.statistics) (h : populateCount conf info sh b = .ok sh') :
    ∃ t', populateCount conf info t b = .ok t' ∧ t'.statistics = sh'.statistics := by
  unfold populateCount at h ⊢
  split at h
  next hc =>
    obtain ⟨⟨u, n⟩, hu, h⟩ := bind_eq_ok.mp h
    cases h
    obtain ⟨t', ht', hstat⟩ := Shared.count_congr ht hu
    rw [if_pos hc, ht', bind_ok]
    exact ⟨t', rfl, hstat⟩
  next hc =>
    cases h
    rw [if_neg hc]
    exact ⟨t, rfl, ht⟩

/-- Nor do they depend on the process. -/
theorem processCount_congr {q q' : Proc} (ht : t.statistics = sh.statistics)
    (h : processCount conf info q sh b = .ok (q', sh')) :
    ∃ p' t', processCount conf info p t b = .ok (p', t') ∧ t'.statistics = sh'.statistics := by
  unfold processCount at h ⊢
  dsimp only at h ⊢
  split at h
  next hd =>
    cases h
    rw [if_pos hd]
    exact ⟨p, t, rfl, ht⟩
  next hd =>
  rw [if_neg hd]
  split at h
  next hflag =>
    rw [if_pos hflag]
    split at h
    · cases h
    next hindex =>
      obtain ⟨⟨u, n⟩, hu, h⟩ := bind_eq_ok.mp h
      obtain ⟨t', ht', hstat⟩ := Shared.count_congr ht hu
      rw [if_neg hindex, ht', bind_ok]
      dsimp only at h ⊢
      split at h
      next hn =>
        cases h
        rw [if_pos hn]
        exact ⟨_, t', rfl, hstat⟩
      next hn =>
        cases h
        rw [if_neg hn]
        exact ⟨_, t', rfl, hstat⟩
  next hflag =>
    obtain ⟨⟨u, n⟩, hu, h⟩ := bind_eq_ok.mp h
    cases h
    obtain ⟨t', ht', hstat⟩ := Shared.count_congr ht hu
    rw [if_neg hflag, ht', bind_ok]
    exact ⟨_, t', rfl, hstat⟩

theorem Sys.store_statistics {off idproc : ℕ} {content : List UInt8} (h : s.store conf idproc off content b = .ok s') :
    s'.shared.statistics = s.shared.statistics := by
  obtain ⟨sh, hsh, h⟩ := bind_eq_ok.mp h
  cases h
  unfold Shared.track at hsh
  split at hsh
  · cases hsh
    rfl
  split at hsh
  · cases hsh
    rfl
  · cases hsh

/-- One round of `real_populate` writes one block, and counts it. -/
theorem populateBlock_account {idproc k : ℕ} {draws : ℕ → Generator.Draw} (hr : Generator.Reach g₀ s.gen)
    (ht : t.statistics = s.shared.statistics) (h : populateBlock conf info idproc draws s k = .ok s') :
    ∃ b t', Emitted g₀ b ∧ populateCount conf info t b = .ok t' ∧ Generator.Reach g₀ s'.gen ∧
      t'.statistics = s'.shared.statistics := by
  have hreach := populateBlock_reach hr h
  obtain ⟨⟨gen, buf, b⟩, hw, h⟩ := bind_eq_ok.mp h
  obtain ⟨shared, hshared, h⟩ := bind_eq_ok.mp h
  obtain ⟨content, -, h⟩ := bind_eq_ok.mp h
  obtain ⟨t', ht', hstat⟩ := populateCount_congr ht hshared
  exact ⟨b, t', ⟨_, _, _, _, _, hr, hw⟩, ht', hreach, hstat.trans (Sys.store_statistics h).symm⟩

/-- **Population is the accounting of the blocks it writes.** -/
theorem populate_account (hr : Generator.Reach g₀ s.gen) (h : populate conf info draws s = .ok s') :
    ∃ (pb : List BlockInfo) (sh : Shared), pb.length = conf.populated.length * conf.rounds ∧ (∀ b ∈ pb, Emitted g₀ b) ∧
      pb.foldlM (populateCount conf info) s.shared = .ok sh ∧ Generator.Reach g₀ s'.gen ∧
      sh.statistics = s'.shared.statistics := by
  refine exists_steps_of_foldlM (R := fun (t : Shared) (s : Sys) => Generator.Reach g₀ s.gen ∧
    t.statistics = s.shared.statistics) (fun s i s' t _ hR h => ?_) ⟨hr, rfl⟩ h
  obtain ⟨bs, t', hlen, hbs, ht', hR'⟩ := exists_steps_of_foldlM (n := 1) (g := populateCount conf info)
    (Q := Emitted g₀) (R := fun (t : Shared) (s : Sys) => Generator.Reach g₀ s.gen ∧
      t.statistics = s.shared.statistics) (fun s k s' t _ hR h => by
    obtain ⟨b, t', hb, ht', hR'⟩ := populateBlock_account hR.1 hR.2 h
    exact ⟨[b], t', rfl, by simpa using hb, by rw [List.foldlM_cons, ht', bind_ok]; rfl, hR'⟩) hR h
  rw [List.length_range, Nat.mul_one] at hlen
  exact ⟨bs, t', hlen, hbs, ht', hR'⟩

/-- A write of a process writes one block, and counts it. -/
theorem processWrite_account {w : WriteStep} (hr : ∀ q, Generator.Reach g₀ (s.procs q).gen)
    (ht : t.statistics = s.shared.statistics) (h : processWrite conf info s w = .ok s') (procs : ℕ → Proc) :
    ∃ b procs' t', Emitted g₀ b ∧ accountWrite conf info (procs, t) b = .ok (procs', t') ∧
      (∀ q, Generator.Reach g₀ (s'.procs q).gen) ∧ t'.statistics = s'.shared.statistics := by
  have hreach := processWrite_reach hr h
  unfold processWrite at h
  simp only [bind_eq_ok] at h
  obtain ⟨⟨gen, buf, b⟩, hw, ⟨off, rest⟩, -, ⟨q, shared⟩, hcount, accesses, -, content, -, s₂, hstore, h⟩ := h
  cases h
  obtain ⟨p', t', ht', hstat⟩ := processCount_congr (p := procs b.procId) ht hcount
  refine ⟨b, Function.update procs b.procId p', t', ⟨_, _, _, _, _, hr w.idproc, hw⟩, ?_, hreach,
    hstat.trans (Sys.store_statistics hstore).symm⟩
  rw [accountWrite, ht', bind_ok]

/-- **So are the writes of the processes.** -/
theorem processRun_account {steps : List WriteStep} (hr : ∀ q, Generator.Reach g₀ (s.procs q).gen)
    (ht : t.statistics = s.shared.statistics) (h : processRun conf info steps s = .ok s') (procs : ℕ → Proc) :
    ∃ (wb : List BlockInfo) (u : (ℕ → Proc) × Shared), wb.length = steps.length ∧ (∀ b ∈ wb, Emitted g₀ b) ∧
      wb.foldlM (accountWrite conf info) (procs, t) = .ok u ∧ (∀ q, Generator.Reach g₀ (s'.procs q).gen) ∧
      u.2.statistics = s'.shared.statistics := by
  have hsteps := exists_steps_of_foldlM (n := 1) (g := accountWrite conf info) (Q := Emitted g₀)
    (R := fun (t : (ℕ → Proc) × Shared) (s : Sys) => (∀ q, Generator.Reach g₀ (s.procs q).gen) ∧
      t.2.statistics = s.shared.statistics) (fun s w s' t _ hR h => by
    obtain ⟨b, procs', t', hb, ht', hR'⟩ := processWrite_account hR.1 hR.2 h t.1
    exact ⟨[b], (procs', t'), rfl, by simpa using hb, by rw [List.foldlM_cons, ht', bind_ok]; rfl, hR'⟩)
    (t := (procs, t)) ⟨hr, ht⟩ h
  rwa [Nat.mul_one] at hsteps

/-- **A run counts the blocks it writes**: the counters at its end are those of the accounting of the blocks that
population wrote, as many as the files hold, and of those that the processes wrote, one for each step. -/
theorem run_account {raws : ℕ → List ℕ} {steps : List WriteStep} (hr : Generator.Reach g₀ s.gen)
    (hpop : populate conf info draws s = .ok s₁) (hlaunch : launch conf raws s₁ = .ok s₂)
    (hrun : processRun conf info steps s₂ = .ok s₃) (procs : ℕ → Proc) :
    ∃ pb wb u, pb.length = conf.populated.length * conf.rounds ∧ wb.length = steps.length ∧
      (∀ b ∈ pb ++ wb, Emitted g₀ b) ∧ account conf info (procs, s.shared) pb wb = .ok u ∧
      u.2.statistics = s₃.shared.statistics := by
  obtain ⟨pb, sh, hlen, hpb, hcount, hr₁, hstat⟩ := populate_account hr hpop
  obtain ⟨-, hshared, -, hprocs⟩ := launch_eq_ok hlaunch
  have hr₂ : ∀ q, Generator.Reach g₀ (s₂.procs q).gen := fun q => by
    rw [hprocs]
    exact hr₁
  obtain ⟨wb, u, hlen', hwb, hcount', -, hstat'⟩ :=
    processRun_account hr₂ (hstat.trans (congrArg Shared.statistics hshared).symm) hrun procs
  refine ⟨pb, wb, u, hlen, hlen', fun b hb => ?_, bind_eq_ok.mpr ⟨sh, hcount, hcount'⟩, hstat'⟩
  exact (List.mem_append.mp hb).elim (hpb b) (hwb b)

end Run

/-! ### The distribution that is logged -/

theorem Emitted.next {g g' : Generator} {d : Generator.Draw} {r : ModelRef} {idproc : ℕ} (hr : Generator.Reach g₀ g)
    (h : getWritecontent g idproc d = .ok (g', r, b)) : Emitted g₀ b := ⟨g, g', idproc, d, r, hr, h⟩

/-- **When the log is the distribution that was written**: if population writes only blocks with copies and the
processes only blocks without, if what is counted in `zerodups` is written once, and no counter wraps.  If there are
at most `2 ^ 31` blocks with copies and the ids do not wrap, in no other case. -/
theorem distribution_log_exact {file : Option (List Char)} {ld : LoadDraws}
    (hload : initializeGenerator conf.generator file ld = .ok (g₀, some info, 1)) (hfirst : ZeroLineFirst g₀)
    (hd : conf.distout = true) (hpb : ∀ b ∈ pb, Emitted g₀ b) (hwb : ∀ b ∈ wb, Emitted g₀ b) (procs : ℕ → Proc)
    (contentMap : List BlockInfo) :
    (Accountable info pb wb → LogExact conf info procs contentMap pb wb) ∧
    (g₀.blockCounts.sum < 2 ^ 32 → info.duplicatedBlocks ≤ 2 ^ 31 →
      LogExact conf info procs contentMap pb wb → Accountable info pb wb) := by
  obtain ⟨hg, -⟩ := loaded_of_initialize hload
  constructor
  · exact fun h => h.logExact hd hg.duplicatedBlocks_lt (fun b hb => hg.knownBlock hfirst (hpb b hb))
      (fun b hb => hg.knownBlock hfirst (hwb b hb))
  · intro hsum hdup h
    exact h.accountable hd hdup
      (fun b hb => ⟨hg.knownBlock hfirst (hpb b hb), hg.blockId_of_copies hfirst hsum (hpb b hb)⟩)
      (fun b hb => ⟨hg.knownBlock hfirst (hwb b hb), hg.blockId_of_copies hfirst hsum (hwb b hb)⟩)

/-- Two files with a log. -/
def loggedFiles : Conf := { twoFiles with distout := true }

/-- A block with copies that population writes, and one without that a process writes. -/
theorem plainDistribution_log : ∃ g₀ info b b',
    initializeGenerator loggedFiles.generator (some plainDistribution) plainDraws = .ok (g₀, some info, 1) ∧
      Emitted g₀ b ∧ Emitted g₀ b' ∧
      LogExact loggedFiles info (fun _ => ⟨g₀, 0, 0, 0, 0, []⟩) [] [b] [b'] := by
  obtain ⟨g₀, info, h, hg⟩ := exists_of_loadsWith (x := initializeGenerator loggedFiles.generator
    (some plainDistribution) plainDraws) (T := fun g info => g.linhas.map Linha.nrCopies = [0, 1] ∧
      info.zeroCopyBlocks = 8 ∧ info.duplicatedBlocks = 4 ∧
      okWith (getWritecontent g 0 ⟨1, 0, 0⟩) (fun x => x.2.2.content = (9, 9) ∧ x.2.2.flagUniqueBlock = 0) ∧
      okWith (getWritecontent g 1 ⟨0, 0, 5⟩) fun x => x.2.2.content = (17, 1) ∧ x.2.2.flagUniqueBlock = 1)
    (by decide +kernel)
  obtain ⟨hcopies, hzero, hdup, hb, hb'⟩ := of_decide_eq_true hg
  obtain ⟨⟨g, r, b⟩, hw, hb⟩ := exists_of_okWith hb
  obtain ⟨⟨g', r', b'⟩, hw', hb'⟩ := exists_of_okWith hb'
  obtain ⟨hcontent, hflag⟩ := of_decide_eq_true hb
  obtain ⟨hcontent', hflag'⟩ := of_decide_eq_true hb'
  have hid : b.blockId = 9 := congrArg Prod.snd hcontent
  have hin : InStatistics info b := ⟨hflag, by rw [hid, hzero, hdup]; decide⟩
  have hout : ¬ InStatistics info b' := fun h => absurd (hflag'.symm.trans h.1) (by decide)
  have hemitted : ∀ x ∈ [b], Emitted g₀ x := by
    intro x hx
    rw [List.mem_singleton.mp hx]
    exact .next .refl hw
  have hemitted' : ∀ x ∈ [b'], Emitted g₀ x := by
    intro x hx
    rw [List.mem_singleton.mp hx]
    exact .next .refl hw'
  have haccountable : Accountable info [b] [b'] := by
    refine ⟨fun x hx => ?_, fun x hx => ?_, ?_, fun x _ => ?_⟩
    · rw [List.mem_singleton.mp hx, hzero, hdup, hid]
      exact ⟨hflag, by decide⟩
    · rw [List.mem_singleton.mp hx]
      exact hflag'
    · -- only the second block is counted in `zerodups`
      simp [hin, hout]
    · refine lt_of_le_of_lt List.count_le_length ?_
      simp
  exact ⟨g₀, info, b, b', h, .next .refl hw, .next .refl hw',
    (distribution_log_exact h (.of_copies hcopies (by decide)) rfl hemitted hemitted' _ _).1 haccountable⟩

/-- A block without copies that population writes is missing, and one with copies that a process writes has no
counter. -/
theorem plainDistribution_logWrong : ∃ g₀ info b b',
    initializeGenerator loggedFiles.generator (some plainDistribution) plainDraws = .ok (g₀, some info, 1) ∧
      ZeroLineFirst g₀ ∧ Emitted g₀ b ∧ Emitted g₀ b' ∧
      ¬ LogExact loggedFiles info (fun _ => ⟨g₀, 0, 0, 0, 0, []⟩) [] [b'] [] ∧
      ¬ LogExact loggedFiles info (fun _ => ⟨g₀, 0, 0, 0, 0, []⟩) [] [] [b] := by
  obtain ⟨g₀, info, h, hg⟩ := exists_of_loadsWith (x := initializeGenerator loggedFiles.generator
    (some plainDistribution) plainDraws) (T := fun g info => g.linhas.map Linha.nrCopies = [0, 1] ∧
      g.blockCounts.sum = 12 ∧ info.duplicatedBlocks = 4 ∧
      okWith (getWritecontent g 0 ⟨1, 0, 0⟩) (fun x => x.2.2.flagUniqueBlock = 0) ∧
      okWith (getWritecontent g 1 ⟨0, 0, 5⟩) fun x => x.2.2.flagUniqueBlock = 1)
    (by decide +kernel)
  obtain ⟨hcopies, hsum, hdup, hb, hb'⟩ := of_decide_eq_true hg
  obtain ⟨⟨g, r, b⟩, hw, hb⟩ := exists_of_okWith hb
  obtain ⟨⟨g', r', b'⟩, hw', hb'⟩ := exists_of_okWith hb'
  have hflag : b.flagUniqueBlock = 0 := of_decide_eq_true hb
  have hflag' : b'.flagUniqueBlock = 1 := of_decide_eq_true hb'
  have hfirst : ZeroLineFirst g₀ := .of_copies hcopies (by decide)
  obtain ⟨hl, -⟩ := loaded_of_initialize h
  have hemitted : Emitted g₀ b := .next .refl hw
  have hemitted' : Emitted g₀ b' := .next .refl hw'
  have hknown : ∀ x, Emitted g₀ x → KnownBlock info x ∧ (x.flagUniqueBlock = 0 → InRange info x) := fun x hx =>
    ⟨hl.knownBlock hfirst hx, hl.blockId_of_copies hfirst (by omega) hx⟩
  refine ⟨g₀, info, b, b', h, hfirst, hemitted, hemitted', fun hexact => ?_, fun hexact => ?_⟩
  · have haccountable := hexact.accountable rfl (by omega) (by simpa using hknown b' hemitted') (by simp)
    have hcopies' := (haccountable.populated b' List.mem_cons_self).1
    omega
  · have haccountable := hexact.accountable rfl (by omega) (by simp) (by simpa using hknown b hemitted)
    have hunique := haccountable.written b List.mem_cons_self
    omega

end Dedisbench
