import Dedisbench.Bench.Integrity

/-!
# What the integrity checker finds

The checker builds the block that a tracker entry describes once more, draws included, and compares.
When the block read differs, it looks for the ids in the block's own first eight bytes, and ends the
process if the lookup fails: `Identifiable` says when it does not.  `onlineCheck_exact_iff` gives the
exact condition under which `onlineCheck` tells whether a block is the one last written, for every
content of the block, and `fileIntegrity_exact_iff` the one under which the blocks of a file that differ
are counted, for every content and size of the file.
-/

namespace Dedisbench

open ByteMem ExceptRun

variable {g g₀ g' : Generator} {info : DuplicatesInfo} {e : BlockInfo} {r : ModelRef} {raw : ℕ}

/-! ### Stamps do not matter -/

theorem ModelsOk.of_frame {bs : ℕ} (h : ModelsOk bs g₀.modelos) (hf : g.frame = g₀.frame) :
    ModelsOk bs g.modelos := by
  have hmodelos : g.modelos.map (List.map Buffer.unstamp) = g₀.modelos.map (List.map Buffer.unstamp) := by
    have h' := congrArg Generator.modelos hf
    exact h'
  -- every model vector has its partner in the other generator
  have hpartner : ∀ m ∈ g.modelos, ∃ m₀ ∈ g₀.modelos, m₀.map Buffer.unstamp = m.map Buffer.unstamp := by
    intro m hm
    have hmem : m.map Buffer.unstamp ∈ g.modelos.map (List.map Buffer.unstamp) := List.mem_map_of_mem hm
    rw [hmodelos] at hmem
    exact List.mem_map.mp hmem
  refine ⟨?_, ?_, ?_⟩
  · have hlen := congrArg List.length hmodelos
    rw [List.length_map, List.length_map] at hlen
    exact hlen.trans h.length
  · intro m hm
    obtain ⟨m₀, hm₀, heq⟩ := hpartner m hm
    have hlen := congrArg List.length heq
    rw [List.length_map, List.length_map] at hlen
    exact hlen.symm.trans (h.compressions m₀ hm₀)
  · intro m hm b hb
    obtain ⟨m₀, hm₀, heq⟩ := hpartner m hm
    have hmem : b.unstamp ∈ m.map Buffer.unstamp := List.mem_map_of_mem hb
    rw [← heq] at hmem
    obtain ⟨b₀, hb₀, hbb⟩ := List.mem_map.mp hmem
    calc b.size = b.unstamp.size := rfl
      _ = b₀.unstamp.size := by rw [hbb]
      _ = bs / 4096 * 4096 := h.size m₀ hm₀ b₀ hb₀

/-- A loaded generator stays one whatever is stamped on its models. -/
theorem Loaded.of_frame (h : Loaded g₀ info) (hf : g.frame = g₀.frame) : Loaded g info := by
  have hzero : g.zeroCopiesBlocks = g₀.zeroCopiesBlocks := by
    have h' := congrArg Generator.zeroCopiesBlocks hf
    exact h'
  have hlinhas := Generator.linhas_of_frame hf
  have htotal := Generator.total_of_frame hf
  refine ⟨?_, ?_, ?_, ?_, ?_, ?_, ?_, ?_, ?_⟩
  · rw [hlinhas]; exact h.lines
  · rw [htotal, Generator.blockCounts, hlinhas]; exact h.total
  · rw [hzero, hlinhas]; exact h.zeroCopies
  · rw [Generator.weights_of_frame hf, hlinhas]; exact h.weights
  · rw [Generator.blockSize_of_frame hf]; exact h.blockSize
  · rw [Generator.blockSize_of_frame hf]; exact h.models.of_frame hf
  · rw [Generator.atribuicao_of_frame hf, htotal]; exact h.assigned
  · rw [hzero]; exact h.infoZero
  · rw [hzero, htotal]; exact h.infoDuplicated

/-! ### The content ids drawn -/

/-- The content id that `generateData` puts in a block for a raw draw. -/
def Generator.drawn (g : Generator) (blockId raw : ℕ) : ℕ :=
  if blockId < firstZeroBlocks g.linhas then
    g.totalUniqueBlocks + raw % (uintMax - g.totalUniqueBlocks + 1)
  else blockId

theorem Loaded.drawContent_eq (hg : Loaded g info) (blockId raw : ℕ) :
    g.drawContent blockId raw = .ok (g.drawn blockId raw) := by
  have htotal : g.totalUniqueBlocks ≤ uintMax := by
    have := hg.total_lt
    unfold uintMax
    omega
  unfold Generator.drawn
  by_cases hz : blockId < firstZeroBlocks g.linhas
  · rw [Generator.drawContent_of_lt hz, if_pos hz, uniformInt, if_pos htotal]
  · rw [Generator.drawContent_of_ge (by omega), if_neg hz]

theorem Loaded.drawn_lt (hg : Loaded g info) {blockId : ℕ} (hid : blockId < 2 ^ 32) :
    g.drawn blockId raw < 2 ^ 32 :=
  Generator.drawContent_lt hid (hg.drawContent_eq blockId raw)

theorem Generator.drawn_of_frame (hf : g.frame = g₀.frame) (blockId : ℕ) :
    g.drawn blockId raw = g₀.drawn blockId raw := by
  rw [Generator.drawn, Generator.drawn, Generator.linhas_of_frame hf, Generator.total_of_frame hf]

/-! ### Building a block again -/

theorem Loaded.eight_le_size {b : Buffer} (hg : Loaded g info) (hb : g.modelAt r = .ok b) : 8 ≤ b.size := by
  have := hg.blockSize
  rw [hg.size_modelAt hb]
  omega

/-- **The block built again**: it has the content id of its entry, unless the entry is for a block with
copies; then it has the one that is drawn. -/
theorem Loaded.getBlockContent_ok (hg : Loaded g info) (hid : e.blockId < 2 ^ 32)
    (hr : g.getModelByIdAndCompression e.blockId e.compressionIndex = .ok r)
    (hd : g.drawn e.blockId raw ≠ uintMax) :
    ∃ g', getBlockContent g e raw = .ok (g', r) ∧ g'.frame = g.frame ∧
      ∀ n, g'.contentAt r n = g.contentOf e.blockId e.compressionIndex
        (if e.flagUniqueBlock = 1 then e.contId else g.drawn e.blockId raw) n := by
  obtain ⟨b, hb⟩ := Generator.modelAt_of_getModel hr
  have hsize := hg.eight_le_size hb
  have hgen : g.generateData e.blockId e.compressionIndex raw =
      .ok (g.setModel r (b.stamp (g.drawn e.blockId raw) e.blockId), r, toInt32 (g.drawn e.blockId raw)) :=
    Generator.generateData_eq_ok.mpr ⟨_, b, hr, hg.drawContent_eq _ _, hb, hsize, rfl, rfl⟩
  have hne : toInt32 (g.drawn e.blockId raw) ≠ -1 := fun h => hd ((toInt32_eq_neg_one (hg.drawn_lt hid)).mp h)
  have hstamped : (g.setModel r (b.stamp (g.drawn e.blockId raw) e.blockId)).modelAt r =
      .ok (b.stamp (g.drawn e.blockId raw) e.blockId) := Generator.modelAt_setModel hb
  have hframe := Generator.generateData_frame hgen
  have hof : ∀ c n, g.contentOf e.blockId e.compressionIndex c n = (b.stamp c e.blockId).bytes n := by
    intro c n
    simp only [Generator.contentOf, hr, hb, bind_ok]
  unfold getBlockContent
  simp only [hgen, bind_ok]
  rw [if_neg hne]
  by_cases hflag : e.flagUniqueBlock = 1
  · have hcopy : (b.stamp (g.drawn e.blockId raw) e.blockId).memcpy 0 4 (le32 e.contId)
        = .ok (b.stamp e.contId e.blockId) := by
      refine Buffer.memcpy_eq_ok.mpr ⟨?_, ?_⟩
      · rw [Buffer.size_stamp]
        omega
      · rw [Buffer.stamp_restamp]
        rfl
    simp only [if_pos hflag, hstamped, hcopy, bind_ok]
    refine ⟨_, rfl, ?_, fun n => ?_⟩
    · rw [Generator.frame_setModel hstamped (by simp), hframe]
    · rw [hof, Generator.contentAt, Generator.modelAt_setModel hstamped, bind_ok]
  · simp only [if_neg hflag]
    refine ⟨_, rfl, hframe, fun n => ?_⟩
    rw [hof, Generator.contentAt, hstamped, bind_ok]

theorem Loaded.getBlockContent_ok_iff (hg : Loaded g info) (hid : e.blockId < 2 ^ 32) :
    (∃ x, getBlockContent g e raw = .ok x) ↔
      (∃ r, g.getModelByIdAndCompression e.blockId e.compressionIndex = .ok r) ∧
        g.drawn e.blockId raw ≠ uintMax := by
  constructor
  · rintro ⟨x, hx⟩
    rw [getBlockContent, bind_eq_ok] at hx
    obtain ⟨⟨g₁, r, res⟩, hgen, hx⟩ := hx
    obtain ⟨cont, b, hr, hcont, -, -, -, hres⟩ := Generator.generateData_eq_ok.mp hgen
    cases (hg.drawContent_eq _ _).symm.trans hcont
    refine ⟨⟨r, hr⟩, fun hd => ?_⟩
    have hexit : res = -1 := hres.trans ((toInt32_eq_neg_one (hg.drawn_lt hid)).mpr hd)
    simp only [hexit, if_true] at hx
    cases hx
  · rintro ⟨⟨r, hr⟩, hd⟩
    obtain ⟨g', h, -⟩ := hg.getBlockContent_ok hid hr hd
    exact ⟨_, h⟩

/-! ### The ids in a block -/

/-- Whether `checkBlockContent` comes back from a block with this block id in its second word: the id
is beyond the ids of the distribution, or it has a line and a model, and the content id drawn for it is
not the one that `generate_data` returns as an error. -/
def Identifiable (g : Generator) (info : DuplicatesInfo) (blockId raw : ℕ) : Prop :=
  info.zeroCopyBlocks + info.duplicatedBlocks ≤ blockId ∨
    (∃ c : ℕ, g.getBlockCompressionById (toInt32 blockId) = .ok (10 * c) ∧
      ∃ r, g.getModelByIdAndCompression blockId c = .ok r) ∧ g.drawn blockId raw ≠ uintMax

theorem Identifiable.of_frame {blockId : ℕ} (h : Identifiable g₀ info blockId raw) (hf : g.frame = g₀.frame) :
    Identifiable g info blockId raw := by
  rcases h with h | ⟨⟨c, hc, r, hr⟩, hd⟩
  · exact .inl h
  · refine .inr ⟨⟨c, ?_, r, ?_⟩, ?_⟩
    · rw [Generator.getBlockCompressionById, Generator.linhas_of_frame hf]; exact hc
    · rw [Generator.getModel_of_frame hf]; exact hr
    · rw [Generator.drawn_of_frame hf]; exact hd

/-- **When the checker comes back from a block that differs.** -/
theorem Loaded.checkBlockContent_ok_iff {buf : Buffer} {bytes : List UInt8} (hg : Loaded g info)
    (h4 : 4096 ∣ g.blockSize) (hbytes : buf.bytes g.blockSize = .ok bytes) :
    (∃ x, checkBlockContent g buf g.blockSize info raw = .ok x) ↔ Identifiable g info (word32 buf.byte 4) raw := by
  have hid := word32_lt buf.byte 4
  obtain ⟨hsize, -⟩ := Buffer.bytes_eq_ok.mp hbytes
  have h8 : buf.bytes 8 = .ok (read buf.byte 0 8) :=
    Buffer.bytes_eq_ok.mpr ⟨by have := hg.blockSize; omega, rfl⟩
  unfold checkBlockContent Identifiable
  simp only [h8, bind_ok]
  generalize word32 buf.byte 0 = contId
  generalize word32 buf.byte 4 = blockId at *
  by_cases hguard : info.zeroCopyBlocks + info.duplicatedBlocks ≤ blockId
  · simp [hguard]
  · rw [if_neg hguard]
    simp only [hguard, false_or]
    cases hx : g.getBlockCompressionById (toInt32 blockId) with
    | error err => simp [bind_error]
    | ok x =>
      simp only [bind_ok, Except.ok.injEq]
      rcases compressionById_cases hx with rfl | ⟨c, hc9, rfl⟩
      · -- no line takes the id
        rw [if_pos (by decide)]
        constructor
        · rintro ⟨y, hy⟩; cases hy
        · rintro ⟨⟨c, hc, -⟩, -⟩; omega
      · have hci : ofInt32 (10 * (c : ℤ)) = 10 * c := by
          have := ofInt32_natCast (n := 10 * c) (by omega)
          push_cast at this
          exact this
        have hne : ¬ 10 * c = uintMax := by unfold uintMax; omega
        rw [hci, if_neg hne, Nat.mul_div_cancel_left c (by omega)]
        have hiff : (∃ x, getBlockContent g (headerInfo contId blockId c) raw = .ok x) ↔ _ :=
          hg.getBlockContent_ok_iff hid
        constructor
        · rintro ⟨y, hy⟩
          rw [bind_eq_ok] at hy
          obtain ⟨z, hz, -⟩ := hy
          obtain ⟨⟨r, hr⟩, hd⟩ := hiff.mp ⟨z, hz⟩
          exact ⟨⟨c, rfl, r, hr⟩, hd⟩
        · rintro ⟨⟨c', hc', r, hr⟩, hd⟩
          have hcc : c' = c := by omega
          subst hcc
          obtain ⟨g', hget, hf, hcontent⟩ :=
            hg.getBlockContent_ok (e := headerInfo contId blockId c') hid hr hd
          obtain ⟨l, hl⟩ : ∃ l, g.contentOf blockId c' (if (headerInfo contId blockId c').flagUniqueBlock = 1 then
              contId else g.drawn blockId raw) g.blockSize = .ok l := hg.contentOf_ok h4 hr
          have hat : g'.contentAt r g.blockSize = .ok l := (hcontent g.blockSize).trans hl
          simp only [hget, hat, hbytes, bind_ok]
          exact ⟨_, rfl⟩

/-- In a distribution of less than `2 ^ 31` blocks the only id of the distribution that the checker cannot
find is `0`, the one of a block of zeros. -/
theorem Loaded.identifiable_iff (hg : Loaded g info) (hten : ∀ l ∈ g.linhas, l.compression.length = 10)
    (hsum : g.blockCounts.sum < 2 ^ 31) {blockId : ℕ} :
    Identifiable g info blockId raw ↔
      g.totalUniqueBlocks ≤ blockId ∨ blockId ≠ 0 ∧ g.drawn blockId raw ≠ uintMax := by
  have htotal : g.totalUniqueBlocks = g.blockCounts.sum := by rw [hg.total, u32_of_lt (by omega)]
  have hsum' : (g.linhas.map Linha.nrBlocks).sum < 2 ^ 32 := lt_trans hsum (by decide)
  unfold Identifiable
  rw [hg.zero_add_duplicated hsum']
  by_cases hle : g.totalUniqueBlocks ≤ blockId
  · simp [hle]
  simp only [hle, false_or]
  refine and_congr_left fun _ => ?_
  have hint : toInt32 blockId = blockId := toInt32_of_lt (by omega)
  rw [hint]
  constructor
  · -- the search finds no line for the id zero
    rintro ⟨c, hc, -⟩ rfl
    have hnone : ∀ l ∈ g.linhas, l.hasId ((0 : ℕ) : ℤ) = false := by
      intro l hl
      obtain ⟨i, hi⟩ := List.mem_iff_getElem?.mp hl
      have hend : l.nrBase + l.nrBlocks ≤ g.blockCounts.sum := hg.lines.ids_le hsum' hi
      have hids : l.hasId ((0 : ℕ) : ℤ) = true ↔ 0 ∈ l.ids := Linha.hasId_iff (by omega) (hg.lines.pos l hl)
      by_contra hne
      have hmem : l.nrBase < 0 := (hids.mp (by simpa using hne)).1
      omega
    rw [Generator.getBlockCompressionById, compressionById_none hnone] at hc
    have hneg : (-1 : ℤ) = 10 * c := Except.ok.inj hc
    omega
  · intro h0
    obtain ⟨i, l, hi, hlo, hhi⟩ := hg.lines.exists_line hsum' (by omega)
      (show blockId ≤ g.blockCounts.sum by omega)
    obtain ⟨c, hc9, hc⟩ := giveMyCompression_ok (hten l (List.mem_of_getElem? hi)).ge (blockId - l.nrBase)
    have hlookup := compressionById_eq hg.lines hsum hi (by omega) (by omega) hc
    rw [Nat.add_sub_cancel' hlo.le] at hlookup
    exact ⟨c, hlookup, hg.getModel_ok (by omega) hc9⟩

/-! ### One check -/

theorem getBlockContent_frame (h : getBlockContent g e raw = .ok (g', r)) : g'.frame = g.frame := by
  rw [getBlockContent, bind_eq_ok] at h
  obtain ⟨⟨g₁, r₁, res⟩, hgen, h⟩ := h
  have hf := Generator.generateData_frame hgen
  simp only at h
  split at h
  · cases h
  split at h
  · simp only [bind_eq_ok] at h
    obtain ⟨b, hb, b', hb', h⟩ := h
    cases h
    obtain ⟨-, rfl⟩ := Buffer.memcpy_eq_ok.mp hb'
    rw [← hf]
    refine Generator.frame_setModel hb (Buffer.unstamp_eq rfl fun k hk => ?_)
    exact write_of_ge (by omega)
  · cases h
    exact hf

theorem checkBlockContent_frame {buf : Buffer} {bs : ℕ} {i : ℤ}
    (h : checkBlockContent g buf bs info raw = .ok (g', i)) : g'.frame = g.frame := by
  unfold checkBlockContent at h
  rw [bind_eq_ok] at h
  obtain ⟨-, -, h⟩ := h
  simp only at h
  split at h
  · cases h; rfl
  rw [bind_eq_ok] at h
  obtain ⟨x, -, h⟩ := h
  split at h
  · cases h
  simp only [bind_eq_ok] at h
  obtain ⟨⟨g₁, r⟩, hget, l, -, bytes, -, h⟩ := h
  cases h
  exact getBlockContent_frame hget

variable {buf : Buffer} {bytes tracked : List UInt8} {z : Bool} {d : CheckDraw}

theorem onlineCheck_frame {bs : ℕ} {i : ℤ} {entries : List ReportEntry}
    (h : onlineCheck g buf e bs z info d = .ok (g', i, entries)) : g'.frame = g.frame := by
  unfold onlineCheck at h
  simp only [bind_eq_ok] at h
  obtain ⟨⟨g₁, r⟩, hget, l, -, bytes, -, h⟩ := h
  have hf := getBlockContent_frame hget
  split at h
  · simp only [bind_eq_ok] at h
    obtain ⟨⟨g₂, j⟩, hcheck, h⟩ := h
    have hf₂ := checkBlockContent_frame hcheck
    split at h <;>
    · cases h
      exact hf₂.trans hf
  · cases h
    exact hf

/-- When `onlineCheck` tells a block right from wrong: for the tracker entry `e` of a block with the
content `tracked`, and a block read with the content `bytes` and the second word `header`.  Neither content
id drawn may be the one that stands for an error; the content id of a block with copies must come out as the
tracked one (or the block read be neither); and a block that differs must be `Identifiable`. -/
def CheckedRight (g : Generator) (info : DuplicatesInfo) (e : BlockInfo) (tracked bytes : List UInt8)
    (header : ℕ) (d : CheckDraw) : Prop :=
  g.drawn e.blockId d.expected ≠ uintMax ∧
  (e.flagUniqueBlock ≠ 1 → g.drawn e.blockId d.expected = e.contId ∨ bytes ≠ tracked ∧
    g.contentOf e.blockId e.compressionIndex (g.drawn e.blockId d.expected) g.blockSize ≠ .ok bytes) ∧
  (bytes = tracked ∨ Identifiable g info header d.found)

theorem CheckedRight.of_frame {header : ℕ} (h : CheckedRight g₀ info e tracked bytes header d)
    (hf : g.frame = g₀.frame) : CheckedRight g info e tracked bytes header d := by
  obtain ⟨h1, h2, h3⟩ := h
  refine ⟨?_, ?_, h3.imp id fun h => h.of_frame hf⟩
  · rw [Generator.drawn_of_frame hf]; exact h1
  · rw [Generator.drawn_of_frame hf, Generator.contentOf_of_frame hf, Generator.blockSize_of_frame hf]; exact h2

section OneCheck

variable {rebuilt : List UInt8}

/-- The content of the block that `onlineCheck` expects. -/
def Generator.rebuiltContent (g : Generator) (e : BlockInfo) (raw : ℕ) : Exec (List UInt8) :=
  g.contentOf e.blockId e.compressionIndex (if e.flagUniqueBlock = 1 then e.contId else g.drawn e.blockId raw)
    g.blockSize

/-- A block that can be built can be built again. -/
theorem Loaded.exists_rebuilt {cont n : ℕ} (hg : Loaded g info) (h4 : 4096 ∣ g.blockSize)
    (h : g.contentOf e.blockId e.compressionIndex cont n = .ok tracked) (raw : ℕ) :
    ∃ rebuilt, g.rebuiltContent e raw = .ok rebuilt := by
  obtain ⟨r, hr⟩ := Generator.exists_model_of_contentOf h
  exact hg.contentOf_ok h4 hr

theorem Loaded.getBlockContent_rebuilt (hg : Loaded g info) (hid : e.blockId < 2 ^ 32)
    (hd : g.drawn e.blockId raw ≠ uintMax) (hof : g.rebuiltContent e raw = .ok rebuilt) :
    ∃ g' r, getBlockContent g e raw = .ok (g', r) ∧ g'.frame = g.frame ∧
      g'.contentAt r g.blockSize = .ok rebuilt := by
  obtain ⟨r, hr⟩ := Generator.exists_model_of_contentOf hof
  obtain ⟨g₁, hget, hf, hcontent⟩ := hg.getBlockContent_ok hid hr hd
  exact ⟨g₁, r, hget, hf, (hcontent _).trans hof⟩

theorem length_bytes_rebuilt (hof : g.rebuiltContent e raw = .ok rebuilt)
    (hbytes : buf.bytes g.blockSize = .ok bytes) : bytes.length = rebuilt.length := by
  rw [Generator.contentOf_length hof, ← (Buffer.bytes_eq_ok.mp hbytes).2, length_read]

/-- The block read is the one expected. -/
theorem Loaded.onlineCheck_of_eq (hg : Loaded g info) (hid : e.blockId < 2 ^ 32)
    (hd : g.drawn e.blockId d.expected ≠ uintMax) (hof : g.rebuiltContent e d.expected = .ok rebuilt)
    (hbytes : buf.bytes g.blockSize = .ok bytes) (heq : bytes = rebuilt) :
    ∃ g', onlineCheck g buf e g.blockSize z info d = .ok (g', 0, []) := by
  obtain ⟨g₁, r, hget, -, hat⟩ := hg.getBlockContent_rebuilt hid hd hof
  have hmem : memcmp bytes rebuilt = 0 := (memcmp_eq_zero (length_bytes_rebuilt hof hbytes)).mpr heq
  unfold onlineCheck
  simp only [hget, hat, hbytes, bind_ok]
  rw [if_neg (by simpa using hmem)]
  exact ⟨g₁, rfl⟩

/-- The block read is not the one expected: it is looked up by its own ids. -/
theorem Loaded.onlineCheck_of_ne (hg : Loaded g info) (h4 : 4096 ∣ g.blockSize) (hid : e.blockId < 2 ^ 32)
    (hd : g.drawn e.blockId d.expected ≠ uintMax) (hof : g.rebuiltContent e d.expected = .ok rebuilt)
    (hbytes : buf.bytes g.blockSize = .ok bytes) (hne : bytes ≠ rebuilt) {v : ℤ} :
    (∃ g' entries, onlineCheck g buf e g.blockSize z info d = .ok (g', v, entries)) ↔
      v = 1 ∧ Identifiable g info (word32 buf.byte 4) d.found := by
  obtain ⟨g₁, r, hget, hf, hat⟩ := hg.getBlockContent_rebuilt hid hd hof
  have hmem : memcmp bytes rebuilt ≠ 0 := fun h =>
    hne ((memcmp_eq_zero (length_bytes_rebuilt hof hbytes)).mp h)
  have hbs := Generator.blockSize_of_frame hf
  have hiff : (∃ x, checkBlockContent g₁ buf g₁.blockSize info d.found = .ok x) ↔ _ :=
    (hg.of_frame hf).checkBlockContent_ok_iff (hbs ▸ h4) (hbs.symm ▸ hbytes)
  rw [hbs] at hiff
  unfold onlineCheck
  simp only [hget, hat, hbytes, bind_ok]
  rw [if_pos hmem]
  constructor
  · rintro ⟨g', entries, h⟩
    rw [bind_eq_ok] at h
    obtain ⟨⟨g₂, j⟩, hcheck, h⟩ := h
    refine ⟨?_, (hiff.mp ⟨_, hcheck⟩).of_frame hf.symm⟩
    simp only at h
    split at h <;>
    · cases h
      rfl
  · rintro ⟨rfl, hident⟩
    obtain ⟨⟨g₂, j⟩, hcheck⟩ := hiff.mpr (hident.of_frame hf)
    simp only [hcheck, bind_ok]
    by_cases hj : j = 0 ∧ z = false
    · rw [if_pos hj]
      exact ⟨_, _, rfl⟩
    · rw [if_neg hj]
      exact ⟨_, _, rfl⟩

theorem Loaded.drawn_of_onlineCheck (hg : Loaded g info) (hid : e.blockId < 2 ^ 32) {bs : ℕ}
    {x : Generator × ℤ × List ReportEntry} (h : onlineCheck g buf e bs z info d = .ok x) :
    g.drawn e.blockId d.expected ≠ uintMax := by
  unfold onlineCheck at h
  rw [bind_eq_ok] at h
  obtain ⟨y, hy, -⟩ := h
  exact ((hg.getBlockContent_ok_iff hid).mp ⟨y, hy⟩).2

/-- The block expected and the block tracked agree with the block read exactly if the content id of a block with
copies comes out as the tracked one, or the block read is neither. -/
theorem Loaded.rebuilt_agrees_iff (hg : Loaded g info) (hid : e.blockId < 2 ^ 32) (hcont : e.contId < 2 ^ 32)
    (htracked : g.contentOf e.blockId e.compressionIndex e.contId g.blockSize = .ok tracked)
    (hof : g.rebuiltContent e raw = .ok rebuilt) :
    (e.flagUniqueBlock ≠ 1 → g.drawn e.blockId raw = e.contId ∨ bytes ≠ tracked ∧
      g.contentOf e.blockId e.compressionIndex (g.drawn e.blockId raw) g.blockSize ≠ .ok bytes) ↔
      (bytes = rebuilt ↔ bytes = tracked) := by
  rw [Generator.rebuiltContent] at hof
  by_cases hflag : e.flagUniqueBlock = 1
  · -- the tracked content id is the one the block is built with
    rw [if_pos hflag, htracked] at hof
    cases hof
    exact ⟨fun _ => Iff.rfl, fun _ hne => absurd hflag hne⟩
  rw [if_neg hflag] at hof
  have hother : g.contentOf e.blockId e.compressionIndex (g.drawn e.blockId raw) g.blockSize ≠ .ok bytes ↔
      bytes ≠ rebuilt := by
    rw [hof]
    exact not_congr ⟨fun h => (Except.ok.inj h).symm, fun h => congrArg _ h.symm⟩
  constructor
  · intro h
    rcases h hflag with hdraw | ⟨hne, hne'⟩
    · rw [hdraw, htracked] at hof
      cases hof
      exact Iff.rfl
    · exact iff_of_false (hother.mp hne') hne
  · intro hiff _
    by_cases htr : bytes = tracked
    · -- two content ids with one content are one
      left
      rw [← hiff.mpr htr, htr] at hof
      have h8 : 8 ≤ g.blockSize := le_trans (by decide) hg.blockSize
      exact (Generator.contentOf_injective h8 (hg.drawn_lt hid) hcont hid hid hof htracked).1
    · exact .inr ⟨htr, hother.mpr (mt hiff.mp htr)⟩

/-- A block that is what its entry says is taken for another one if its content id does not come out. -/
theorem Loaded.onlineCheck_of_drawn_ne (hg : Loaded g info) (h4 : 4096 ∣ g.blockSize) (hid : e.blockId < 2 ^ 32)
    (hcont : e.contId < 2 ^ 32)
    (htracked : g.contentOf e.blockId e.compressionIndex e.contId g.blockSize = .ok tracked)
    (hbytes : buf.bytes g.blockSize = .ok tracked) (hflag : e.flagUniqueBlock ≠ 1)
    (hd : g.drawn e.blockId d.expected ≠ uintMax) (hne : g.drawn e.blockId d.expected ≠ e.contId)
    (hident : Identifiable g info (word32 buf.byte 4) d.found) :
    ∃ g' entries, onlineCheck g buf e g.blockSize z info d = .ok (g', 1, entries) := by
  obtain ⟨rebuilt, hof⟩ := hg.exists_rebuilt h4 htracked d.expected
  have hother : tracked ≠ rebuilt := by
    intro heq
    have hagree := (hg.rebuilt_agrees_iff hid hcont htracked hof).mpr (iff_of_true heq rfl)
    rcases hagree hflag with hdraw | ⟨hself, -⟩
    · exact hne hdraw
    · exact hself rfl
  exact (hg.onlineCheck_of_ne h4 hid hd hof hbytes hother).mpr ⟨rfl, hident⟩

/-- A check comes back if the expected block can be built, and the block read is it or is `Identifiable`. -/
def Returns (g : Generator) (info : DuplicatesInfo) (e : BlockInfo) (bytes : List UInt8) (header : ℕ)
    (d : CheckDraw) : Prop :=
  g.drawn e.blockId d.expected ≠ uintMax ∧
    (g.rebuiltContent e d.expected = .ok bytes ∨ Identifiable g info header d.found)

theorem Generator.rebuiltContent_of_frame (hf : g.frame = g₀.frame) (raw : ℕ) :
    g.rebuiltContent e raw = g₀.rebuiltContent e raw := by
  rw [Generator.rebuiltContent, Generator.rebuiltContent, Generator.contentOf_of_frame hf,
    Generator.drawn_of_frame hf, Generator.blockSize_of_frame hf]

theorem Returns.of_frame {header : ℕ} (h : Returns g₀ info e bytes header d) (hf : g.frame = g₀.frame) :
    Returns g info e bytes header d := by
  obtain ⟨hd, hbytes⟩ := h
  refine ⟨?_, hbytes.imp (fun h => ?_) fun h => h.of_frame hf⟩
  · rw [Generator.drawn_of_frame hf]; exact hd
  · rw [Generator.rebuiltContent_of_frame hf]; exact h

/-- **What a check returns, and when**: it compares with the block built again. -/
theorem Loaded.onlineCheck_ok_iff (hg : Loaded g info) (h4 : 4096 ∣ g.blockSize) (hid : e.blockId < 2 ^ 32)
    (htracked : g.contentOf e.blockId e.compressionIndex e.contId g.blockSize = .ok tracked)
    (hbytes : buf.bytes g.blockSize = .ok bytes) {v : ℤ} :
    (∃ g' entries, onlineCheck g buf e g.blockSize z info d = .ok (g', v, entries)) ↔
      v = (if g.rebuiltContent e d.expected = .ok bytes then 0 else 1) ∧
        Returns g info e bytes (word32 buf.byte 4) d := by
  by_cases hd : g.drawn e.blockId d.expected = uintMax
  · constructor
    · rintro ⟨g', entries, h⟩
      exact absurd hd (hg.drawn_of_onlineCheck hid h)
    · exact fun h => absurd hd h.2.1
  obtain ⟨rebuilt, hof⟩ := hg.exists_rebuilt h4 htracked d.expected
  have hrebuilt : g.rebuiltContent e d.expected = .ok bytes ↔ bytes = rebuilt := by
    rw [hof]
    exact ⟨fun h => (Except.ok.inj h).symm, fun h => congrArg _ h.symm⟩
  by_cases heq : bytes = rebuilt
  · rw [if_pos (hrebuilt.mpr heq)]
    obtain ⟨g₁, hcheck⟩ := hg.onlineCheck_of_eq (z := z) hid hd hof hbytes heq
    rw [hcheck]
    constructor
    · rintro ⟨g', entries, h⟩
      cases h
      exact ⟨rfl, hd, .inl (hrebuilt.mpr heq)⟩
    · rintro ⟨rfl, -⟩
      exact ⟨_, _, rfl⟩
  · rw [hg.onlineCheck_of_ne h4 hid hd hof hbytes heq, if_neg (mt hrebuilt.mp heq)]
    exact and_congr_right fun _ =>
      ⟨fun h => ⟨hd, .inr h⟩, fun h => h.2.resolve_left fun h => heq (hrebuilt.mp h)⟩

/-- **One check is exact** under `CheckedRight`, and only then. -/
theorem Loaded.onlineCheck_exact_iff (hg : Loaded g info) (h4 : 4096 ∣ g.blockSize) (hid : e.blockId < 2 ^ 32)
    (hcont : e.contId < 2 ^ 32)
    (htracked : g.contentOf e.blockId e.compressionIndex e.contId g.blockSize = .ok tracked)
    (hbytes : buf.bytes g.blockSize = .ok bytes) :
    (∃ g' entries, onlineCheck g buf e g.blockSize z info d =
      .ok (g', if bytes = tracked then 0 else 1, entries)) ↔
      CheckedRight g info e tracked bytes (word32 buf.byte 4) d := by
  obtain ⟨rebuilt, hof⟩ := hg.exists_rebuilt h4 htracked d.expected
  have hrebuilt : g.rebuiltContent e d.expected = .ok bytes ↔ bytes = rebuilt := by
    rw [hof]
    exact ⟨fun h => (Except.ok.inj h).symm, fun h => congrArg _ h.symm⟩
  rw [hg.onlineCheck_ok_iff h4 hid htracked hbytes, CheckedRight, hg.rebuilt_agrees_iff hid hcont htracked hof]
  simp only [Returns, hrebuilt]
  by_cases heq : bytes = rebuilt <;> by_cases htr : bytes = tracked
  · have hsame : rebuilt = tracked := heq.symm.trans htr
    simp [heq, hsame]
  · simp only [if_pos heq, if_neg htr, one_ne_zero, false_and, false_iff]
    exact fun h => htr (h.2.1.mp heq)
  · simp only [if_neg heq, if_pos htr, zero_ne_one, false_and, false_iff]
    exact fun h => heq (h.2.1.mpr htr)
  · simp [heq, htr]

end OneCheck

/-! ### A whole file -/

/-- A tracker entry and the content of its block, as some call of `nextBlock` produced them. -/
def Tracks (g₀ : Generator) (bs : ℕ) (e : BlockInfo) (tracked : List UInt8) : Prop :=
  ∃ g g' d b r b', Generator.Reach g₀ g ∧ g.nextBlock d b = .ok (g', r, b') ∧
    e = { b' with procId := e.procId } ∧ g'.contentAt r bs = .ok tracked

/-- What a tracker entry says about its block, in terms of the loaded generator. -/
theorem Loaded.of_tracks (hg : Loaded g₀ info) (h : Tracks g₀ g₀.blockSize e tracked) :
    4096 ∣ g₀.blockSize ∧ e.contId < 2 ^ 32 ∧ e.blockId < 2 ^ 32 ∧
      g₀.contentOf e.blockId e.compressionIndex e.contId g₀.blockSize = .ok tracked := by
  obtain ⟨g, g', d, b, r, b', hr, hn, he, hc⟩ := h
  have h4 : 4096 ∣ g₀.blockSize := by
    have hf : g'.frame = g₀.frame := (Generator.nextBlock_frame hn).trans hr.frame_eq
    rw [Generator.contentAt, bind_eq_ok] at hc
    obtain ⟨m, hm, hbytes⟩ := hc
    have hsize := (hg.of_frame hf).size_modelAt hm
    rw [Generator.blockSize_of_frame hf] at hsize
    have := (Buffer.bytes_eq_ok.mp hbytes).1
    exact Dvd.intro_left _ (le_antisymm (Nat.div_mul_le_self _ _) (by omega))
  obtain ⟨l, hl, hof⟩ := hg.nextBlock_content h4 hr hn
  cases hl.symm.trans hc
  have hids := Generator.nextBlock_ids_lt hn
  rw [he]
  exact ⟨h4, hids.1, hids.2, hof⟩

theorem File.pread_block {f : File} {bs off : ℕ} (hsize : buf.size = bs) (hf : off + bs ≤ f.size) :
    ∃ buf', f.pread buf bs off = (bs, buf') ∧ buf'.size = bs ∧ buf'.bytes bs = .ok (read f.byte off bs) ∧
      (8 ≤ bs → word32 buf'.byte 4 = word32 f.byte (off + 4)) := by
  have hn : min bs (f.size - off) = bs := by omega
  refine ⟨{ buf with byte := write buf.byte 0 bs fun i => f.byte (off + i) }, ?_, hsize, ?_, ?_⟩
  · rw [File.pread, hn]
  · refine Buffer.bytes_eq_ok.mpr ⟨hsize.ge, ?_⟩
    rw [read_write_self, read_eq_read_iff]
    intro i _
    rw [Nat.zero_add]
  · intro h8
    refine word32_congr fun i hi => ?_
    have h : write buf.byte 0 bs (fun i => f.byte (off + i)) (0 + (4 + i)) = f.byte (off + (4 + i)) :=
      write_at (show 4 + i < bs by omega)
    rw [Nat.zero_add] at h
    rw [Nat.add_assoc]
    exact h

variable {conf : Conf} {sh : Shared} {f : File} {row : ℕ} {draws : ℕ → CheckDraw}

theorem Conf.rounds_eq (conf : Conf) (h : conf.blockSize ∣ conf.filesize) : conf.rounds = conf.totblocks := by
  obtain ⟨k, hk⟩ := h
  have hpos := conf.blockSize_pos
  rw [Conf.rounds, Conf.totblocks, hk, Nat.mul_div_cancel_left _ hpos]
  refine Nat.div_eq_of_lt_le ?_ ?_
  · rw [Nat.mul_comm]
    omega
  · rw [Nat.succ_mul, Nat.mul_comm]
    omega

/-- A check of block `k` of a file comes back with the verdict `bad`, in any state of the generator. -/
def Verdict (g₀ : Generator) (conf : Conf) (info : DuplicatesInfo) (f : File) (e : BlockInfo) (d : CheckDraw)
    (k : ℕ) (bad : Prop) [Decidable bad] : Prop :=
  ∀ g buf, g.frame = g₀.frame →
    buf.bytes conf.blockSize = .ok (read f.byte (k * conf.blockSize) conf.blockSize) →
    word32 buf.byte 4 = word32 f.byte (k * conf.blockSize + 4) →
    ∃ g' entries, onlineCheck g buf e conf.blockSize true info d = .ok (g', if bad then 1 else 0, entries)

/-- One round of `fileIntegrity`. -/
theorem checkBlock_ok {c : CheckState} {k : ℕ} {bad : Prop} [Decidable bad] (h8 : 8 ≤ conf.blockSize)
    (hc : c.gen.frame = g₀.frame) (hbuf : c.buf.size = conf.blockSize)
    (hf : k * conf.blockSize + conf.blockSize ≤ f.size) (he : sh.contentTracker conf row k = .ok e)
    (hv : Verdict g₀ conf info f e (draws k) k bad)
    (hpos : 0 ≤ c.res) (hres : c.res + (if bad then 1 else 0) < 2 ^ 31) :
    ∃ c', checkBlock conf info sh f row draws c k = .ok c' ∧ c'.gen.frame = g₀.frame ∧
      c'.buf.size = conf.blockSize ∧ c'.res = c.res + if bad then 1 else 0 := by
  obtain ⟨buf', hpread, hsize', hbytes, hheader⟩ := File.pread_block hbuf hf
  obtain ⟨g', entries, hcheck⟩ := hv c.gen buf' hc hbytes (hheader h8)
  have hadd : cInt (c.res + if bad then 1 else 0) = .ok (c.res + if bad then 1 else 0) :=
    if_pos ⟨by split <;> omega, hres⟩
  unfold checkBlock
  simp only [hpread]
  rw [if_neg (by omega)]
  simp only [he, hcheck, bind_ok, hadd]
  exact ⟨_, rfl, (onlineCheck_frame hcheck).trans hc, hsize', rfl⟩

/-- **The verdicts of a file are added up.** -/
theorem fileIntegrity_countP {D : ℕ → CheckDraw} {m : Mem} {entry : ℕ → BlockInfo} {B : ℕ → Prop}
    [DecidablePred B]
    (h8 : 8 ≤ conf.blockSize) (hdvd : conf.blockSize ∣ conf.filesize) (hf : conf.filesize ≤ f.size)
    (hgen : g.frame = g₀.frame)
    (he : ∀ k < conf.totblocks, sh.contentTracker conf row k = .ok (entry k))
    (hv : ∀ k < conf.totblocks, Verdict g₀ conf info f (entry k) (D k) k (B k))
    (hcount : (List.range conf.totblocks).countP (fun k => B k) < 2 ^ 31) :
    ∃ c, fileIntegrity conf info sh f row D m g = .ok c ∧ c.gen.frame = g₀.frame ∧
      c.res = (List.range conf.totblocks).countP fun k => B k := by
  -- the invariant of the loop, over the rounds made
  have loop : ∀ n ≤ conf.totblocks, ∃ c, (List.range n).foldlM (checkBlock conf info sh f row D)
      ⟨g, ⟨conf.blockSize, m⟩, 0, []⟩ = .ok c ∧ c.gen.frame = g₀.frame ∧ c.buf.size = conf.blockSize ∧
      c.res = (List.range n).countP fun k => B k := by
    intro n
    induction n with
    | zero => intro _; exact ⟨_, rfl, hgen, rfl, rfl⟩
    | succ n ih =>
      intro hn
      obtain ⟨c, hc, hframe, hbuf, hres⟩ := ih (by omega)
      have hle : (List.range (n + 1)).countP (fun k => B k) ≤
          (List.range conf.totblocks).countP fun k => B k := (List.range_sublist.mpr hn).countP_le
      rw [List.range_succ, List.countP_append, List.countP_singleton] at hle ⊢
      have hend : n * conf.blockSize + conf.blockSize ≤ f.size := by
        calc n * conf.blockSize + conf.blockSize = (n + 1) * conf.blockSize := by ring
          _ ≤ conf.totblocks * conf.blockSize := Nat.mul_le_mul_right _ hn
          _ ≤ f.size := le_trans conf.totblocks_mul_le hf
      have hsum : (((List.range n).countP (fun k => B k) + if decide (B n) = true then 1 else 0 : ℕ) : ℤ)
          = c.res + if B n then 1 else 0 := by
        rw [hres]
        by_cases hb : B n <;> simp [hb]
      obtain ⟨c', hc', hframe', hbuf', hres'⟩ := checkBlock_ok h8 hframe hbuf hend (he n (by omega))
        (hv n (by omega)) (by omega) (by omega)
      refine ⟨c', ?_, hframe', hbuf', hres'.trans hsum.symm⟩
      rw [foldlM_append_eq_ok]
      exact ⟨c, hc, foldlM_cons_eq_ok.mpr ⟨c', hc', rfl⟩⟩
  rw [fileIntegrity, conf.rounds_eq hdvd]
  obtain ⟨c, hc, hframe, -, hres⟩ := loop _ le_rfl
  exact ⟨c, hc, hframe, hres⟩

/-! ### The condition for a whole file -/

/-- The bytes of block `k` that are on the disk, none behind the end of the file. -/
def File.block (f : File) (bs k : ℕ) : List UInt8 := read f.byte (k * bs) (min bs (f.size - k * bs))

/-- The buffer of `file_integrity` after `k` reads; a short read leaves the end of the last block in it. -/
def File.buffers (f : File) (bs : ℕ) (fresh : Mem) : ℕ → Buffer
  | 0 => ⟨bs, fresh⟩
  | k + 1 => (f.pread (f.buffers bs fresh k) bs (k * bs)).2

theorem File.size_buffers (f : File) (bs : ℕ) (fresh : Mem) (k : ℕ) : (f.buffers bs fresh k).size = bs := by
  induction k with
  | zero => rfl
  | succ k ih => exact ih

/-- The bytes that block `k` is checked by. -/
def File.checkedBytes (f : File) (bs : ℕ) (fresh : Mem) (k : ℕ) : List UInt8 :=
  read (f.buffers bs fresh (k + 1)).byte 0 bs

theorem File.bytes_buffers (f : File) (bs : ℕ) (fresh : Mem) (k : ℕ) :
    (f.buffers bs fresh (k + 1)).bytes bs = .ok (f.checkedBytes bs fresh k) :=
  Buffer.bytes_eq_ok.mpr ⟨(f.size_buffers bs fresh (k + 1)).ge, rfl⟩

/-- A block that is all on the disk is checked by its bytes. -/
theorem File.checkedBytes_eq (f : File) {bs k : ℕ} (h : k * bs + bs ≤ f.size) (fresh : Mem) :
    f.checkedBytes bs fresh k = read f.byte (k * bs) bs ∧ f.block bs k = read f.byte (k * bs) bs ∧
      (8 ≤ bs → word32 (f.buffers bs fresh (k + 1)).byte 4 = word32 f.byte (k * bs + 4)) := by
  obtain ⟨buf', hpread, hsize, hbytes, hheader⟩ := File.pread_block (f.size_buffers bs fresh k) h
  have hbuf : f.buffers bs fresh (k + 1) = buf' := by rw [File.buffers, hpread]
  refine ⟨?_, ?_, fun h8 => hbuf ▸ hheader h8⟩
  · rw [File.checkedBytes, hbuf]
    exact (Buffer.bytes_eq_ok.mp hbytes).2
  · rw [File.block, min_eq_left (by omega)]

/-- The check of block `k` counts it as wrong: nothing could be read, or not the block that is built again. -/
def Suspect (g : Generator) (bs : ℕ) (f : File) (fresh : Mem) (entry : ℕ → BlockInfo) (draws : ℕ → CheckDraw)
    (k : ℕ) : Prop :=
  f.size ≤ k * bs ∨ g.rebuiltContent (entry k) (draws k).expected ≠ .ok (f.checkedBytes bs fresh k)

instance (g : Generator) (bs : ℕ) (f : File) (fresh : Mem) (entry : ℕ → BlockInfo) (draws : ℕ → CheckDraw) :
    DecidablePred (Suspect g bs f fresh entry draws) := fun _ => inferInstanceAs (Decidable (_ ∨ _))

/-- When `fileIntegrity` counts right: every check comes back, as many right blocks are taken for wrong ones as the other
way round, and an `int` is enough. -/
structure FileCheckedRight (g : Generator) (info : DuplicatesInfo) (conf : Conf) (f : File) (fresh : Mem)
    (entry : ℕ → BlockInfo) (content : ℕ → List UInt8) (draws : ℕ → CheckDraw) : Prop where
  returns : ∀ k < conf.rounds, f.size ≤ k * conf.blockSize ∨ Returns g info (entry k)
    (f.checkedBytes conf.blockSize fresh k) (word32 (f.buffers conf.blockSize fresh (k + 1)).byte 4) (draws k)
  balanced :
    (List.range conf.rounds).countP (fun k =>
      Suspect g conf.blockSize f fresh entry draws k ∧ f.block conf.blockSize k = content k) =
    (List.range conf.rounds).countP (fun k =>
      ¬ Suspect g conf.blockSize f fresh entry draws k ∧ f.block conf.blockSize k ≠ content k)
  fits : (List.range conf.rounds).countP (fun k => f.block conf.blockSize k ≠ content k) < 2 ^ 31

/-- Two counts agree if as many are in the one only as in the other only. -/
theorem countP_eq_countP_iff {α : Type*} {p q : α → Prop} [DecidablePred p] [DecidablePred q] (l : List α) :
    l.countP (fun a => p a) = l.countP (fun a => q a) ↔
      l.countP (fun a => p a ∧ ¬ q a) = l.countP (fun a => ¬ p a ∧ q a) := by
  have hsum : l.countP (fun a => p a) + l.countP (fun a => ¬ p a ∧ q a) =
      l.countP (fun a => q a) + l.countP (fun a => p a ∧ ¬ q a) := by
    induction l with
    | nil => rfl
    | cons a l ih =>
      simp only [List.countP_cons, Bool.decide_and, decide_not] at ih ⊢
      by_cases hp : p a <;> by_cases hq : q a <;> simp [hp, hq] <;> omega
  omega

section WholeFile

variable {entry : ℕ → BlockInfo} {content : ℕ → List UInt8} {fresh : Mem}

/-- **One round of `fileIntegrity`**: it comes to its end if the check does and the count fits, and counts the
suspects. -/
theorem Loaded.checkBlock_ok_iff {c : CheckState} {k : ℕ} (hg : Loaded g₀ info) (hbs : conf.blockSize = g₀.blockSize)
    (hgen : c.gen.frame = g₀.frame) (hbuf : c.buf = f.buffers conf.blockSize fresh k) (hpos : 0 ≤ c.res)
    (he : sh.contentTracker conf row k = .ok (entry k)) (ht : Tracks g₀ g₀.blockSize (entry k) tracked) {i : ℤ}
    (hi : i = if Suspect g₀ conf.blockSize f fresh entry draws k then 1 else 0) :
    ((∃ c', checkBlock conf info sh f row draws c k = .ok c') ↔
      (f.size ≤ k * conf.blockSize ∨ Returns g₀ info (entry k) (f.checkedBytes conf.blockSize fresh k)
        (word32 (f.buffers conf.blockSize fresh (k + 1)).byte 4) (draws k)) ∧ c.res + i < 2 ^ 31) ∧
    ∀ c', checkBlock conf info sh f row draws c k = .ok c' → c'.gen.frame = g₀.frame ∧
      c'.buf = f.buffers conf.blockSize fresh (k + 1) ∧ c'.res = c.res + i := by
  have hbs8 := hg.blockSize
  have hpread : f.pread c.buf conf.blockSize (k * conf.blockSize) =
      (min conf.blockSize (f.size - k * conf.blockSize), f.buffers conf.blockSize fresh (k + 1)) := by
    rw [hbuf]
    rfl
  unfold checkBlock
  simp only [hpread]
  by_cases hshort : f.size ≤ k * conf.blockSize
  · -- nothing is read behind the end of the file
    have hone : i = 1 := hi.trans (if_pos (.inl hshort))
    rw [if_pos (by omega)]
    simp only [bind_eq_ok, cInt_eq_ok, hone, hshort, true_or, true_and]
    refine ⟨⟨?_, fun hfits => ⟨_, _, ⟨⟨by omega, hfits⟩, rfl⟩, rfl⟩⟩, ?_⟩
    · rintro ⟨-, -, ⟨⟨-, hfits⟩, -⟩, -⟩
      exact hfits
    · rintro c' ⟨res, ⟨-, rfl⟩, hc'⟩
      cases hc'
      exact ⟨hgen, rfl, rfl⟩
  · rw [if_neg (by omega)]
    obtain ⟨h4, -, hid, hof⟩ := hg.of_tracks ht
    have hgbs := Generator.blockSize_of_frame hgen
    -- the check is made in the generator as it is by then, whose frame is that of the loaded one
    have hcheck : ∀ {v : ℤ}, (∃ g' entries, onlineCheck c.gen (f.buffers conf.blockSize fresh (k + 1)) (entry k)
        conf.blockSize true info (draws k) = .ok (g', v, entries)) ↔ v = i ∧ Returns g₀ info (entry k)
          (f.checkedBytes conf.blockSize fresh k) (word32 (f.buffers conf.blockSize fresh (k + 1)).byte 4) (draws k) := by
      intro v
      have hbytes : (f.buffers conf.blockSize fresh (k + 1)).bytes c.gen.blockSize =
          .ok (f.checkedBytes conf.blockSize fresh k) := by
        rw [hgbs, ← hbs]
        exact f.bytes_buffers conf.blockSize fresh k
      have hof' : c.gen.contentOf (entry k).blockId (entry k).compressionIndex (entry k).contId c.gen.blockSize =
          .ok tracked := by
        rw [Generator.contentOf_of_frame hgen, hgbs]
        exact hof
      have hiff := (hg.of_frame hgen).onlineCheck_ok_iff (z := true) (d := draws k) (v := v) (hgbs ▸ h4) hid hof' hbytes
      rw [hgbs, ← hbs] at hiff
      rw [hiff, hi, Generator.rebuiltContent_of_frame hgen]
      simp only [Suspect, hshort, false_or, ite_not]
      exact and_congr_right fun _ => ⟨fun h => h.of_frame hgen.symm, fun h => h.of_frame hgen⟩
    simp only [he, bind_ok, hshort, false_or]
    constructor
    · constructor
      · rintro ⟨c', h⟩
        obtain ⟨⟨g', v, entries⟩, honline, h⟩ := bind_eq_ok.mp h
        obtain ⟨res, hres, -⟩ := bind_eq_ok.mp h
        obtain ⟨rfl, hreturns⟩ := hcheck.mp ⟨g', entries, honline⟩
        exact ⟨hreturns, (cInt_eq_ok.mp hres).1.2⟩
      · rintro ⟨hreturns, hfits⟩
        obtain ⟨g', entries, honline⟩ := hcheck.mpr ⟨rfl, hreturns⟩
        have hnonneg : 0 ≤ i := by
          rw [hi]
          split <;> decide
        have hres : cInt (c.res + i) = .ok (c.res + i) := cInt_eq_ok.mpr ⟨⟨by omega, hfits⟩, rfl⟩
        simp only [honline, hres, bind_ok]
        exact ⟨_, rfl⟩
    · intro c' h
      obtain ⟨⟨g', v, entries⟩, honline, h⟩ := bind_eq_ok.mp h
      obtain ⟨res, hres, h⟩ := bind_eq_ok.mp h
      obtain ⟨rfl, -⟩ := hcheck.mp ⟨g', entries, honline⟩
      cases h
      exact ⟨(onlineCheck_frame honline).trans hgen, rfl, (cInt_eq_ok.mp hres).2.symm⟩

/-- **What `fileIntegrity` returns, and when**: the number of the suspects, if every check comes back and it fits. -/
theorem Loaded.fileIntegrity_ok_iff {N : ℕ} (hg : Loaded g₀ info) (hbs : conf.blockSize = g₀.blockSize)
    (hf : g.frame = g₀.frame)
    (ht : ∀ k < conf.rounds, sh.contentTracker conf row k = .ok (entry k) ∧
      Tracks g₀ g₀.blockSize (entry k) (content k)) :
    (∃ c, fileIntegrity conf info sh f row draws fresh g = .ok c ∧ c.res = N) ↔
      (∀ k < conf.rounds, f.size ≤ k * conf.blockSize ∨ Returns g₀ info (entry k)
        (f.checkedBytes conf.blockSize fresh k) (word32 (f.buffers conf.blockSize fresh (k + 1)).byte 4) (draws k)) ∧
      (List.range conf.rounds).countP (fun k => Suspect g₀ conf.blockSize f fresh entry draws k) = N ∧ N < 2 ^ 31 := by
  let suspects : ℕ → ℕ := fun n =>
    (List.range n).countP fun k => Suspect g₀ conf.blockSize f fresh entry draws k
  have hsucc : ∀ n, suspects (n + 1) = suspects n +
      if Suspect g₀ conf.blockSize f fresh entry draws n then 1 else 0 := by
    intro n
    simp only [suspects, List.range_succ, List.countP_append, List.countP_singleton, decide_eq_true_eq]
  have hmono : ∀ {m n}, m ≤ n → suspects m ≤ suspects n := fun h => (List.range_sublist.mpr h).countP_le
  -- the loop keeps the buffer and the count of the suspects
  let P : ℕ → CheckState → Prop := fun k c =>
    c.gen.frame = g₀.frame ∧ c.buf = f.buffers conf.blockSize fresh k ∧ c.res = suspects k
  let C : ℕ → Prop := fun k => (f.size ≤ k * conf.blockSize ∨ Returns g₀ info (entry k)
    (f.checkedBytes conf.blockSize fresh k) (word32 (f.buffers conf.blockSize fresh (k + 1)).byte 4) (draws k)) ∧
    suspects (k + 1) < 2 ^ 31
  have hstep : ∀ k < conf.rounds, ∀ c, P k c →
      ((∃ c', checkBlock conf info sh f row draws c k = .ok c') ↔ C k) ∧
        ∀ c', checkBlock conf info sh f row draws c k = .ok c' → P (k + 1) c' := by
    rintro k hk c ⟨hgen, hbuf, hres⟩
    obtain ⟨he, htracks⟩ := ht k hk
    obtain ⟨hiff, hkeep⟩ := hg.checkBlock_ok_iff hbs hgen hbuf (by omega) he htracks rfl
    have hcount : c.res + (if Suspect g₀ conf.blockSize f fresh entry draws k then 1 else 0) = suspects (k + 1) := by
      rw [hres, hsucc]
      split <;> simp
    rw [hcount] at hiff hkeep
    refine ⟨hiff.trans (and_congr_right fun _ => by norm_cast), hkeep⟩
  obtain ⟨hiff, hkeep⟩ := foldlM_range_ok_iff (P := P) (C := C) (fun k hk c hc => (hstep k hk c hc).1)
    (fun k hk c c' hc => (hstep k hk c hc).2 c') (s := ⟨g, ⟨conf.blockSize, fresh⟩, 0, []⟩) ⟨hf, rfl, rfl⟩
  constructor
  · rintro ⟨c, hc, hres⟩
    have hC := hiff.mp ⟨c, hc⟩
    have hcount : suspects conf.rounds = N := by
      have := (hkeep c hc).2.2
      omega
    refine ⟨fun k hk => (hC k hk).1, hcount, ?_⟩
    rcases Nat.eq_zero_or_pos conf.rounds with hzero | hrounds
    · have hnone : suspects 0 = N := hzero ▸ hcount
      have : suspects 0 = 0 := rfl
      omega
    · have hlast := (hC (conf.rounds - 1) (by omega)).2
      rw [Nat.sub_add_cancel hrounds, hcount] at hlast
      exact hlast
  · rintro ⟨hreturns, hcount, hfits⟩
    have hcount : suspects conf.rounds = N := hcount
    obtain ⟨c, hc⟩ := hiff.mpr fun k hk => ⟨hreturns k hk, by
      have := hmono (show k + 1 ≤ conf.rounds from hk)
      omega⟩
    have hres : c.res = suspects conf.rounds := (hkeep c hc).2.2
    exact ⟨c, hc, by rw [hres, hcount]⟩

/-- **When `fileIntegrity` counts right.** -/
theorem Loaded.fileIntegrity_exact_iff (hg : Loaded g₀ info) (hbs : conf.blockSize = g₀.blockSize)
    (hf : g.frame = g₀.frame)
    (ht : ∀ k < conf.rounds, sh.contentTracker conf row k = .ok (entry k) ∧
      Tracks g₀ g₀.blockSize (entry k) (content k)) :
    (∃ c, fileIntegrity conf info sh f row draws fresh g = .ok c ∧
      c.res = (List.range conf.rounds).countP fun k => f.block conf.blockSize k ≠ content k) ↔
      FileCheckedRight g₀ info conf f fresh entry content draws := by
  rw [hg.fileIntegrity_ok_iff hbs hf ht, countP_eq_countP_iff]
  simp only [not_not]
  exact ⟨fun ⟨hreturns, hbalanced, hfits⟩ => ⟨hreturns, hbalanced, hfits⟩,
    fun h => ⟨h.returns, h.balanced, h.fits⟩⟩

/-- A file that is all on the disk is counted right if every block of it is checked right. -/
theorem Loaded.fileCheckedRight (hg : Loaded g₀ info) (hbs : conf.blockSize = g₀.blockSize)
    (ht : ∀ k < conf.rounds, Tracks g₀ g₀.blockSize (entry k) (content k))
    (hfile : conf.rounds * conf.blockSize ≤ f.size)
    (hright : ∀ k < conf.rounds, CheckedRight g₀ info (entry k) (content k)
      (read f.byte (k * conf.blockSize) conf.blockSize) (word32 f.byte (k * conf.blockSize + 4)) (draws k))
    (hfits : (List.range conf.rounds).countP (fun k => f.block conf.blockSize k ≠ content k) < 2 ^ 31) :
    FileCheckedRight g₀ info conf f fresh entry content draws := by
  have h8 : 8 ≤ conf.blockSize := by rw [hbs]; exact le_trans (by decide) hg.blockSize
  have hend : ∀ k < conf.rounds, k * conf.blockSize + conf.blockSize ≤ f.size := fun k hk =>
    calc k * conf.blockSize + conf.blockSize = (k + 1) * conf.blockSize := by ring
      _ ≤ conf.rounds * conf.blockSize := Nat.mul_le_mul_right _ hk
      _ ≤ f.size := hfile
  have hblock : ∀ k < conf.rounds, (g₀.rebuiltContent (entry k) (draws k).expected =
      .ok (f.checkedBytes conf.blockSize fresh k) ↔ f.block conf.blockSize k = content k) ∧
      Returns g₀ info (entry k) (f.checkedBytes conf.blockSize fresh k)
        (word32 (f.buffers conf.blockSize fresh (k + 1)).byte 4) (draws k) := by
    intro k hk
    obtain ⟨hchecked, hdisk, hheader⟩ := f.checkedBytes_eq (hend k hk) fresh
    obtain ⟨h4, hcont, hid, hof⟩ := hg.of_tracks (ht k hk)
    obtain ⟨rebuilt, hrebuilt⟩ := hg.exists_rebuilt h4 hof (draws k).expected
    obtain ⟨hd, hflag, hident⟩ := hright k hk
    rw [hg.rebuilt_agrees_iff hid hcont hof hrebuilt] at hflag
    have hiff : g₀.rebuiltContent (entry k) (draws k).expected = .ok (f.checkedBytes conf.blockSize fresh k) ↔
        read f.byte (k * conf.blockSize) conf.blockSize = content k := by
      rw [hrebuilt, hchecked, ← hflag]
      exact ⟨fun h => (Except.ok.inj h).symm, fun h => congrArg _ h.symm⟩
    rw [hdisk, hheader h8]
    exact ⟨hiff, hd, hident.imp hiff.mpr id⟩
  have hsuspect : ∀ k < conf.rounds,
      (Suspect g₀ conf.blockSize f fresh entry draws k ↔ f.block conf.blockSize k ≠ content k) := by
    intro k hk
    have hk' := hend k hk
    rw [Suspect, or_iff_right (by omega)]
    exact not_congr (hblock k hk).1
  refine ⟨fun k hk => .inr (hblock k hk).2, ?_, hfits⟩
  apply List.countP_congr
  intro k hk
  have hiff := hsuspect k (List.mem_range.mp hk)
  simp only [decide_eq_true_eq, hiff]
  tauto

end WholeFile

/-! ### The checker -/

/-- **When the integrity checker is exact.**  Let `g` be a loaded generator in any state of a run, `e` a tracker
entry made by `nextBlock`, `tracked` the content of its block and `buf` whatever was read from the disk.
`onlineCheck` comes back, with `1` if and only if the block read differs from the tracked one, exactly when
`CheckedRight` holds; and `fileIntegrity` over a file of any size comes back with the number of blocks that differ on the
disk exactly when `FileCheckedRight` does, as it does if every block is there and `CheckedRight`. -/
theorem checker_exact_iff {bs n pa pc : ℕ} {file : Option (List Char)} {ld : LoadDraws}
    (h : initializeGenerator (.mk' bs n pa pc) file ld = .ok (g₀, some info, 1)) :
    (∀ g e tracked buf bytes finalCheck d, g.frame = g₀.frame → Tracks g₀ bs e tracked →
      buf.bytes bs = .ok bytes →
      ((∃ g' entries, onlineCheck g buf e bs finalCheck info d =
        .ok (g', if bytes = tracked then 0 else 1, entries)) ↔
        CheckedRight g₀ info e tracked bytes (word32 buf.byte 4) d)) ∧
    (∀ (conf : Conf) sh f row draws fresh g (entry : ℕ → BlockInfo) (content : ℕ → List UInt8),
      conf.blockSize = bs → g.frame = g₀.frame →
      (∀ k < conf.rounds, sh.contentTracker conf row k = .ok (entry k) ∧ Tracks g₀ bs (entry k) (content k)) →
      ((∃ c, fileIntegrity conf info sh f row draws fresh g = .ok c ∧
        c.res = (List.range conf.rounds).countP fun k => f.block bs k ≠ content k) ↔
        FileCheckedRight g₀ info conf f fresh entry content draws) ∧
      (conf.rounds * bs ≤ f.size →
        (∀ k < conf.rounds, CheckedRight g₀ info (entry k) (content k) (read f.byte (k * bs) bs)
          (word32 f.byte (k * bs + 4)) (draws k)) →
        (List.range conf.rounds).countP (fun k => f.block bs k ≠ content k) < 2 ^ 31 →
        FileCheckedRight g₀ info conf f fresh entry content draws)) := by
  obtain ⟨hg, rfl⟩ := loaded_of_initialize h
  constructor
  · intro g e tracked buf bytes finalCheck d hf ht hbytes
    obtain ⟨h4, hcont, hid, hof⟩ := hg.of_tracks ht
    have hbs := Generator.blockSize_of_frame hf
    rw [← Generator.contentOf_of_frame hf, ← hbs] at hof
    rw [← hbs] at h4 hbytes ⊢
    rw [(hg.of_frame hf).onlineCheck_exact_iff h4 hid hcont hof hbytes]
    exact ⟨fun hright => hright.of_frame hf.symm, fun hright => hright.of_frame hf⟩
  · intro conf sh f row draws fresh g entry content hbs hf ht
    have hexact := @Loaded.fileIntegrity_exact_iff _ _ _ _ _ f row draws entry content fresh hg hbs hf ht
    rw [hbs] at hexact
    refine ⟨hexact, fun hfile hright hfits => ?_⟩
    exact hg.fileCheckedRight hbs (fun k hk => (ht k hk).2) (by rw [hbs]; exact hfile)
      (by rw [hbs]; exact hright) (by rw [hbs]; exact hfits)

/-- A block overwritten with `'b'`s, as `insert_bug` does, is found. -/
theorem plainDistribution_corrupted : ∃ g₀ info g r e tracked,
    initializeGenerator (.mk' 4096 256 2 25) (some plainDistribution) plainDraws = .ok (g₀, some info, 1) ∧
      g₀.nextBlock ⟨1, 3, 0⟩ ⟨0, 0, 0, 0, 0⟩ = .ok (g, r, e) ∧ g.contentAt r 4096 = .ok tracked ∧
      ∃ g' entries, onlineCheck g ⟨4096, fun _ => 98⟩ e 4096 true info ⟨0, 0⟩ = .ok (g', 1, entries) := by
  obtain ⟨g₀, info, h, hg⟩ := exists_of_loadsWith (x := initializeGenerator (.mk' 4096 256 2 25)
    (some plainDistribution) plainDraws) (T := fun g info => firstZeroBlocks g.linhas = 128 ∧
      info.zeroCopyBlocks + info.duplicatedBlocks = 192 ∧
      okWith (g.nextBlock ⟨1, 3, 0⟩ ⟨0, 0, 0, 0, 0⟩) fun x => x.2.2.blockId = 132 ∧ x.2.2.contId = 132 ∧
        okWith (x.1.contentAt x.2.1 4096) fun l => l.head? = some 132) (by decide +kernel)
  obtain ⟨hfirst, hinfo, hn⟩ := of_decide_eq_true hg
  obtain ⟨⟨g, r, e⟩, hn, he⟩ := exists_of_okWith hn
  obtain ⟨hid, hcont, hc⟩ := of_decide_eq_true he
  obtain ⟨tracked, hc, hhead⟩ := exists_of_okWith hc
  have hbytes : (⟨4096, fun _ => 98⟩ : Buffer).bytes 4096 = .ok (read (fun _ => 98) 0 4096) :=
    Buffer.bytes_eq_ok.mpr ⟨le_rfl, rfl⟩
  have hne : read (fun _ => 98) 0 4096 ≠ tracked := by
    intro heq
    have hhead' : tracked.head? = some 132 := of_decide_eq_true hhead
    rw [← heq] at hhead'
    exact absurd hhead' (by decide +kernel)
  have hright : CheckedRight g₀ info e tracked (read (fun _ => 98) 0 4096) (word32 (fun _ => 98) 4) ⟨0, 0⟩ := by
    have hdrawn : g₀.drawn e.blockId 0 = 132 := by
      rw [Generator.drawn, hfirst, hid]
      rfl
    refine ⟨by rw [hdrawn]; decide, fun _ => .inl (hdrawn.trans hcont.symm), .inr (.inl ?_)⟩
    rw [hinfo]
    decide
  have hcheck := ((checker_exact_iff h).1 g e tracked ⟨4096, fun _ => 98⟩ _ true ⟨0, 0⟩
    (Generator.nextBlock_frame hn) ⟨g₀, g, _, _, r, e, .refl, hn, rfl, hc⟩ hbytes).mpr hright
  rw [if_neg hne] at hcheck
  exact ⟨g₀, info, g, r, e, tracked, h, hn, hc, hcheck⟩

/-- A block of zeros ends the process: its id `0` belongs to no line. -/
theorem plainDistribution_zeroed : ∃ g₀ info g r e tracked,
    initializeGenerator (.mk' 4096 256 2 25) (some plainDistribution) plainDraws = .ok (g₀, some info, 1) ∧
      g₀.nextBlock ⟨1, 3, 0⟩ ⟨0, 0, 0, 0, 0⟩ = .ok (g, r, e) ∧ g.contentAt r 4096 = .ok tracked ∧
      onlineCheck g ⟨4096, fun _ => 0⟩ e 4096 true info ⟨0, 0⟩ = .error .exit := by
  obtain ⟨g₀, info, h, hg⟩ := exists_of_loadsWith (x := initializeGenerator (.mk' 4096 256 2 25)
    (some plainDistribution) plainDraws) (T := fun g info =>
      okWith (g.nextBlock ⟨1, 3, 0⟩ ⟨0, 0, 0, 0, 0⟩) fun x =>
        okWith (x.1.contentAt x.2.1 4096) (fun _ => true) ∧
        failsWith (onlineCheck x.1 ⟨4096, fun _ => 0⟩ x.2.2 4096 true info ⟨0, 0⟩) .exit) (by decide +kernel)
  obtain ⟨⟨g, r, e⟩, hn, he⟩ := exists_of_okWith hg
  obtain ⟨hc, hexit⟩ := of_decide_eq_true he
  obtain ⟨tracked, hc, -⟩ := exists_of_okWith hc
  exact ⟨g₀, info, g, r, e, tracked, h, hn, hc, eq_error_of_failsWith hexit⟩

end Dedisbench
