import Dedisbench.Bench.Run

/-!
# Blocks that the checker recognises

`check_block_content` takes the ids out of a block, builds the block again and compares.  `block_recognised_iff` says
of which blocks of the generator it finds that they are well built.  The ids run up to the total, which the checker
takes for no id any more; and it ends the process when `generate_data` draws the content id that reads as an error,
although the content id of the block is put back afterwards.
-/

namespace Dedisbench

open ByteMem ExceptRun

variable {g₀ g g' g₁ : Generator} {info : DuplicatesInfo} {e b b' : BlockInfo} {buf : Buffer} {r : ModelRef}
  {bytes : List UInt8} {raw : ℕ} {d : Generator.Draw}

/-- **Recognised**: the checker says that the block is the one its first eight bytes describe. -/
def Recognised (g : Generator) (info : DuplicatesInfo) (buf : Buffer) (blockSize raw : ℕ) : Prop :=
  ∃ g', checkBlockContent g buf blockSize info raw = .ok (g', 0)

/-- What it takes for a block with the content `bytes`: its id is below the total, the content id drawn for it is not
the one that `generate_data` returns as an error, a content id that is the block id is drawn again, and the line that
the search finds gives the block the same bytes. -/
structure Recognisable (g : Generator) (info : DuplicatesInfo) (e : BlockInfo) (bytes : List UInt8) (raw : ℕ) :
    Prop where
  id_lt : e.blockId < info.zeroCopyBlocks + info.duplicatedBlocks
  drawn : g.drawn e.blockId raw ≠ uintMax
  copies : e.contId = e.blockId → g.drawn e.blockId raw = e.contId
  compression : ∃ c : ℕ, g.getBlockCompressionById (toInt32 e.blockId) = .ok (10 * c) ∧
    g.contentOf e.blockId c e.contId g.blockSize = .ok bytes

theorem Recognisable.of_frame (h : Recognisable g₀ info e bytes raw) (hf : g.frame = g₀.frame) :
    Recognisable g info e bytes raw := by
  obtain ⟨c, hc, hof⟩ := h.compression
  refine ⟨h.id_lt, ?_, ?_, c, ?_, ?_⟩
  · rw [Generator.drawn_of_frame hf]
    exact h.drawn
  · rw [Generator.drawn_of_frame hf]
    exact h.copies
  · rw [Generator.getBlockCompressionById, Generator.linhas_of_frame hf]
    exact hc
  · rw [Generator.contentOf_of_frame hf, Generator.blockSize_of_frame hf]
    exact hof

theorem word32_contId_of_contentOf {n c : ℕ} (hn : 8 ≤ n) (hcont : e.contId < 2 ^ 32)
    (hbytes : buf.bytes n = .ok bytes) (hof : g.contentOf e.blockId c e.contId n = .ok bytes) :
    word32 buf.byte 0 = e.contId := by
  obtain ⟨m, hm⟩ := Generator.stamped_of_contentOf hof
  rw [← m.word32_stamp_contId e.blockId hcont]
  exact word32_of_read ((Buffer.bytes_eq_ok.mp hbytes).2.trans hm) (by omega)

/-- The content id that `getBlockContent` gives a block from the ids in its header. -/
def Generator.restored (g : Generator) (e : BlockInfo) (raw : ℕ) : ℕ :=
  if e.contId = e.blockId then g.drawn e.blockId raw else e.contId

/-- What the checker builds from the header of a block. -/
theorem Loaded.getBlockContent_header {c : ℕ} (hg : Loaded g info) (hid : e.blockId < 2 ^ 32)
    (hr : g.getModelByIdAndCompression e.blockId c = .ok r) (hd : g.drawn e.blockId raw ≠ uintMax) :
    ∃ g', getBlockContent g (headerInfo e.contId e.blockId c) raw = .ok (g', r) ∧
      ∀ n, g'.contentAt r n = g.contentOf e.blockId c (g.restored e raw) n := by
  obtain ⟨g', hget, -, hcontent⟩ := hg.getBlockContent_ok (e := headerInfo e.contId e.blockId c) hid hr hd
  refine ⟨g', hget, fun n => (hcontent n).trans ?_⟩
  have hcont : (if (headerInfo e.contId e.blockId c).flagUniqueBlock = 1 then e.contId
      else g.drawn e.blockId raw) = g.restored e raw := by
    unfold headerInfo Generator.restored
    by_cases h : e.contId = e.blockId
    · simp [h]
    · simp [h]
  exact congrArg (fun c' => g.contentOf e.blockId c c' n) hcont

theorem ofInt32_compression {c : ℕ} (hc : c ≤ 9) : ofInt32 (10 * (c : ℤ)) = 10 * c := by
  have h := ofInt32_natCast (n := 10 * c) (by omega)
  push_cast at h
  exact h

/-- **When a block is recognised.** -/
theorem Loaded.recognised_iff {ci : ℕ} (hg : Loaded g info) (hid : e.blockId < 2 ^ 32) (hcont : e.contId < 2 ^ 32)
    (hof : g.contentOf e.blockId ci e.contId g.blockSize = .ok bytes) (hbytes : buf.bytes g.blockSize = .ok bytes) :
    Recognised g info buf g.blockSize raw ↔ Recognisable g info e bytes raw := by
  have hle : 8 ≤ g.blockSize := le_trans (by decide) hg.blockSize
  have h8 : buf.bytes 8 = .ok (read buf.byte 0 8) :=
    Buffer.bytes_eq_ok.mpr ⟨hle.trans (Buffer.bytes_eq_ok.mp hbytes).1, rfl⟩
  have hword := word32_contId_of_contentOf hle hcont hbytes hof
  have hword' := word32_of_contentOf hle hid hbytes hof
  unfold Recognised checkBlockContent
  simp only [h8, bind_ok, hword, hword']
  by_cases hguard : info.zeroCopyBlocks + info.duplicatedBlocks ≤ e.blockId
  · rw [if_pos hguard]
    exact ⟨fun ⟨_, h⟩ => by simp at h, fun h => absurd hguard (not_le.mpr h.id_lt)⟩
  rw [if_neg hguard]
  constructor
  · rintro ⟨g', h⟩
    obtain ⟨x, hx, h⟩ := bind_eq_ok.mp h
    rcases compressionById_cases hx with rfl | ⟨c, hc9, rfl⟩
    · -- no line takes the id
      rw [if_pos (by decide)] at h
      cases h
    have hne : ¬ 10 * c = uintMax := by unfold uintMax; omega
    rw [ofInt32_compression hc9, if_neg hne, Nat.mul_div_cancel_left c (by omega)] at h
    obtain ⟨⟨g₁, r₁⟩, hget, h⟩ := bind_eq_ok.mp h
    obtain ⟨⟨r, hr⟩, hd⟩ := (hg.getBlockContent_ok_iff (e := headerInfo e.contId e.blockId c) hid).mp ⟨_, hget⟩
    obtain ⟨g₂, hget', hcontent⟩ := hg.getBlockContent_header hid hr hd
    cases hget.symm.trans hget'
    obtain ⟨content, hat, h⟩ := bind_eq_ok.mp h
    rw [hbytes, bind_ok, Except.ok.injEq, Prod.mk.injEq] at h
    have hof' := (hcontent g.blockSize).symm.trans hat
    have hlen : bytes.length = content.length := by
      rw [Generator.contentOf_length hof, Generator.contentOf_length hof']
    obtain rfl := (memcmp_eq_zero hlen).mp h.2
    have hlt : g.restored e raw < 2 ^ 32 := by
      unfold Generator.restored
      split
      · exact hg.drawn_lt hid
      · exact hcont
    have hrestored := (Generator.contentOf_injective hle hcont hlt hid hid hof hof').1
    refine ⟨not_le.mp hguard, hd, fun heq => ?_, c, hx, hrestored ▸ hof'⟩
    rw [hrestored, Generator.restored, if_pos heq]
  · intro h
    obtain ⟨c, hx, hof'⟩ := h.compression
    obtain ⟨r, hr⟩ := Generator.exists_model_of_contentOf hof'
    obtain ⟨g', hget, hcontent⟩ := hg.getBlockContent_header hid hr h.drawn
    have hrestored : g.restored e raw = e.contId := by
      unfold Generator.restored
      split
      next heq => exact h.copies heq
      next => rfl
    rw [hrestored] at hcontent
    have hc9 : c ≤ 9 := by
      rcases compressionById_cases hx with hneg | ⟨c', hc', heq⟩ <;> omega
    have hne : ¬ 10 * c = uintMax := by unfold uintMax; omega
    refine ⟨g', ?_⟩
    rw [hx, bind_ok, ofInt32_compression hc9, if_neg hne, Nat.mul_div_cancel_left c (by omega), hget, bind_ok]
    dsimp only
    rw [hcontent, hof', bind_ok, hbytes, bind_ok, (memcmp_eq_zero rfl).mpr rfl]

theorem firstZeroBlocks_le {F : Type} (ls : List (Linha F)) : firstZeroBlocks ls ≤ (ls.map Linha.nrBlocks).sum := by
  unfold firstZeroBlocks
  split
  next l hl => exact List.le_sum_of_mem (List.mem_map_of_mem (List.mem_of_find?_eq_some hl))
  next => exact Nat.zero_le _

/-- Where the ids do not reach `2 ^ 31`, the line and the content id are always the right ones. -/
theorem Loaded.recognisable_iff (hg : Loaded g₀ info) (hsum : g₀.blockCounts.sum < 2 ^ 31) (hr : Generator.Reach g₀ g)
    (hn : g.nextBlock d b = .ok (g', r, e))
    (hof : g₀.contentOf e.blockId e.compressionIndex e.contId g₀.blockSize = .ok bytes) :
    Recognisable g₀ info e bytes raw ↔ e.blockId ≠ g₀.totalUniqueBlocks ∧ g₀.drawn e.blockId raw ≠ uintMax := by
  have hsum' : g₀.blockCounts.sum < 2 ^ 32 := lt_trans hsum (by decide)
  have htotal : g₀.totalUniqueBlocks = g₀.blockCounts.sum := by rw [hg.total, u32_of_lt hsum']
  have hguard := hg.zero_add_duplicated hsum'
  obtain ⟨i, l, pos, hi, h1, hpos, hid, hci, -⟩ := hg.nextBlock_line hsum' hr hn
  have hend : l.nrBase + l.nrBlocks ≤ g₀.blockCounts.sum := hg.lines.ids_le hsum' hi
  constructor
  · intro h
    have hlt := h.id_lt
    exact ⟨by omega, h.drawn⟩
  · rintro ⟨hne, hd⟩
    refine ⟨by omega, hd, fun heq => ?_, e.compressionIndex, ?_, hof⟩
    · have hge : firstZeroBlocks g₀.linhas ≤ e.blockId := by
        by_contra hlt
        have hdraw := (Generator.nextBlock_content hn).1
        have hle : firstZeroBlocks g₀.linhas ≤ g₀.blockCounts.sum := firstZeroBlocks_le g₀.linhas
        -- a content id that is drawn is not below the total
        rw [Generator.drawContent_of_frame hr.frame_eq, Generator.drawContent_of_lt (by omega)] at hdraw
        have hge := (uniformInt_eq_ok hdraw).1
        omega
      rw [Generator.drawn, if_neg (by omega), heq]
    · rw [hid, toInt32_of_lt (by omega)]
      exact compressionById_eq hg.lines hsum hi h1 hpos hci

/-- **Which blocks of the generator are recognised.**  Take any block that a loaded generator hands out, at any time
of a run, and a checker with the generator as it is at any time, with any draw.  If the lines of the distribution add up
to less than `2 ^ 31` blocks, the block is recognised exactly if it is not the one with the last id and the content id
drawn for it by the checker is not `2 ^ 32 - 1`.  In every distribution it is recognised exactly if it is
`Recognisable`. -/
theorem block_recognised_iff {bs n pa pc : ℕ} {file : Option (List Char)} {ld : LoadDraws}
    (h : initializeGenerator (.mk' bs n pa pc) file ld = .ok (g₀, some info, 1)) (hr : Generator.Reach g₀ g)
    (hn : g.nextBlock d b = .ok (g', r, e)) (hc : g'.contentAt r bs = .ok bytes) (hbytes : buf.bytes bs = .ok bytes)
    (hf : g₁.frame = g₀.frame) :
    (Recognised g₁ info buf bs raw ↔ Recognisable g₀ info e bytes raw) ∧
    (g₀.blockCounts.sum < 2 ^ 31 → (Recognised g₁ info buf bs raw ↔
      e.blockId ≠ g₀.totalUniqueBlocks ∧ g₀.drawn e.blockId raw ≠ uintMax)) := by
  obtain ⟨hg, rfl⟩ := loaded_of_initialize h
  have htracks : Tracks g₀ g₀.blockSize e bytes := ⟨g, g', d, b, r, e, hr, hn, rfl, hc⟩
  obtain ⟨-, hcont, hid, hof⟩ := hg.of_tracks htracks
  have hg₁ := hg.of_frame hf
  have hbs := Generator.blockSize_of_frame hf
  have hof₁ : g₁.contentOf e.blockId e.compressionIndex e.contId g₁.blockSize = .ok bytes := by
    rw [Generator.contentOf_of_frame hf, hbs]
    exact hof
  have hiff : Recognised g₁ info buf g₀.blockSize raw ↔ Recognisable g₀ info e bytes raw := by
    rw [← hbs, hg₁.recognised_iff hid hcont hof₁ (hbs ▸ hbytes)]
    exact ⟨fun h => h.of_frame hf.symm, fun h => h.of_frame hf⟩
  exact ⟨hiff, fun hsum => hiff.trans (hg.recognisable_iff hsum hr hn hof)⟩

/-- The buffer that a generator hands out is itself a buffer with these bytes. -/
theorem Generator.exists_buffer {n : ℕ} (h : g.contentAt r n = .ok bytes) :
    ∃ buf, g.modelAt r = .ok buf ∧ buf.bytes n = .ok bytes := bind_eq_ok.mp h

/-- A block with copies that is recognised. -/
theorem plainDistribution_recognised : ∃ g₀ info g r e buf,
    initializeGenerator (.mk' 4096 256 2 25) (some plainDistribution) plainDraws = .ok (g₀, some info, 1) ∧
      g₀.nextBlock ⟨1, 3, 0⟩ ⟨0, 0, 0, 0, 0⟩ = .ok (g, r, e) ∧ g.modelAt r = .ok buf ∧ e.blockId = 132 ∧
      Recognised g info buf 4096 0 := by
  obtain ⟨g₀, info, h, hg⟩ := exists_of_loadsWith (x := initializeGenerator (.mk' 4096 256 2 25)
    (some plainDistribution) plainDraws) (T := fun g _ => g.blockCounts.sum = 192 ∧ g.totalUniqueBlocks = 192 ∧
      firstZeroBlocks g.linhas = 128 ∧ okWith (g.nextBlock ⟨1, 3, 0⟩ ⟨0, 0, 0, 0, 0⟩) fun x =>
        x.2.2.blockId = 132 ∧ okWith (x.1.contentAt x.2.1 4096) fun _ => true) (by decide +kernel)
  obtain ⟨hsum, htotal, hzero, hn⟩ := of_decide_eq_true hg
  obtain ⟨⟨g, r, e⟩, hn, he⟩ := exists_of_okWith hn
  obtain ⟨hid, hc⟩ := of_decide_eq_true he
  obtain ⟨bytes, hc, -⟩ := exists_of_okWith hc
  obtain ⟨buf, hbuf, hbytes⟩ := Generator.exists_buffer hc
  have hid : e.blockId = 132 := hid
  have hdrawn : g₀.drawn e.blockId 0 = 132 := by
    rw [Generator.drawn, hid, hzero]
    rfl
  refine ⟨g₀, info, g, r, e, buf, h, hn, hbuf, hid, ?_⟩
  refine ((block_recognised_iff h .refl hn hc hbytes (Generator.nextBlock_frame hn)).2 (by omega)).mpr ⟨?_, ?_⟩
  · rw [hid, htotal]
    decide
  · rw [hdrawn]
    decide

/-- The block with the last id is not: the checker takes its id for none. -/
theorem plainDistribution_lastId : ∃ g₀ info g r e buf g',
    initializeGenerator (.mk' 4096 256 2 25) (some plainDistribution) plainDraws = .ok (g₀, some info, 1) ∧
      ZeroLineFirst g₀ ∧ g₀.nextBlock ⟨1, 63, 0⟩ ⟨0, 0, 0, 0, 0⟩ = .ok (g, r, e) ∧ g.modelAt r = .ok buf ∧
      e.blockId = 192 ∧ checkBlockContent g buf 4096 info 0 = .ok (g', -1) ∧ ¬ Recognised g info buf 4096 0 := by
  obtain ⟨g₀, info, h, hg⟩ := exists_of_loadsWith (x := initializeGenerator (.mk' 4096 256 2 25)
    (some plainDistribution) plainDraws) (T := fun g info => g.linhas.map Linha.nrCopies = [0, 1] ∧
      okWith (g.nextBlock ⟨1, 63, 0⟩ ⟨0, 0, 0, 0, 0⟩) fun x => x.2.2.blockId = 192 ∧
        okWith (x.1.modelAt x.2.1) fun buf => okWith (checkBlockContent x.1 buf 4096 info 0) fun y => y.2 = -1)
    (by decide +kernel)
  obtain ⟨hcopies, hn⟩ := of_decide_eq_true hg
  obtain ⟨⟨g, r, e⟩, hn, he⟩ := exists_of_okWith hn
  obtain ⟨hid, hbuf⟩ := of_decide_eq_true he
  obtain ⟨buf, hbuf, hcheck⟩ := exists_of_okWith hbuf
  obtain ⟨⟨g', i⟩, hcheck, hi⟩ := exists_of_okWith hcheck
  obtain rfl : i = -1 := of_decide_eq_true hi
  refine ⟨g₀, info, g, r, e, buf, g', h, .of_copies hcopies (by decide), hn, hbuf, hid, hcheck, ?_⟩
  rintro ⟨g'', hzero⟩
  have hneg : (-1 : ℤ) = 0 := congrArg Prod.snd (Except.ok.inj (hcheck.symm.trans hzero))
  exact absurd hneg (by decide)

end Dedisbench
