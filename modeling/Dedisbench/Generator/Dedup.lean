import Dedisbench.Generator.BlockModel
import Dedisbench.Generator.Ids

/-!
# Deduplication identity

Two blocks handed out anywhere in a run hold the same bytes exactly when their content ids and block
ids are the same (`contents_equal_iff_ids`).  A block id fixes its line, its compression index and its
model, so the ids decide all the bytes; and the ids are themselves the first eight bytes.  When the
numbers of blocks of the lines do not fit into an `unsigned int`, one id is in two lines, and blocks
with the same ids can differ (`wrapDistribution_contents`).
-/

namespace Dedisbench

open ByteMem ExceptRun

variable {g₀ g g' g₁ g₁' g₂ g₂' : Generator} {info : DuplicatesInfo} {d d₁ d₂ : Generator.Draw}
  {b b' b₁ b₁' b₂ b₂' : BlockInfo} {r r₁ r₂ : ModelRef}

/-! ### Every block has a content -/

theorem Loaded.size_modelAt {m : Buffer} (hg : Loaded g info) (h : g.modelAt r = .ok m) :
    m.size = g.blockSize / 4096 * 4096 := by
  obtain ⟨ms, hms, hm⟩ := Generator.modelAt_eq_ok.mp h
  exact hg.models.size ms (List.mem_of_getElem? hms) m (List.mem_of_getElem? hm)

theorem Loaded.contentOf_ok {id c cont : ℕ} (hg : Loaded g info) (h4 : 4096 ∣ g.blockSize)
    (hr : g.getModelByIdAndCompression id c = .ok r) : ∃ l, g.contentOf id c cont g.blockSize = .ok l := by
  obtain ⟨m, hm⟩ := Generator.modelAt_of_getModel hr
  have hsize : g.blockSize ≤ (m.stamp cont id).size := by
    rw [Buffer.size_stamp, hg.size_modelAt hm, Nat.div_mul_cancel h4]
  refine ⟨read (m.stamp cont id).byte 0 g.blockSize, ?_⟩
  simp only [Generator.contentOf, hr, bind_ok, hm]
  exact Buffer.bytes_eq_ok.mpr ⟨hsize, rfl⟩

theorem Generator.getModel_of_frame {id c : ℕ} (h : g'.frame = g.frame) :
    g'.getModelByIdAndCompression id c = g.getModelByIdAndCompression id c := by
  rw [← getModelByIdAndCompression_frame, h, getModelByIdAndCompression_frame]

/-- **The block `nextBlock` hands out**, at any time of a run, as content of the loaded generator. -/
theorem Loaded.nextBlock_content (hg : Loaded g₀ info) (h4 : 4096 ∣ g₀.blockSize) (hr : Generator.Reach g₀ g)
    (h : g.nextBlock d b = .ok (g', r, b')) :
    ∃ l, g'.contentAt r g₀.blockSize = .ok l ∧
      g₀.contentOf b'.blockId b'.compressionIndex b'.contId g₀.blockSize = .ok l := by
  have hframe := hr.frame_eq
  have hcontent := (Generator.nextBlock_content h).2 g₀.blockSize
  rw [Generator.contentOf_of_frame hframe] at hcontent
  obtain ⟨l, pos, ci, res, -, -, -, hgen, rfl⟩ := Generator.nextBlock_eq_ok.mp h
  obtain ⟨cont, m, hmodel, -⟩ := Generator.generateData_eq_ok.mp hgen
  rw [Generator.getModel_of_frame hframe] at hmodel
  obtain ⟨bytes, hbytes⟩ : ∃ bytes, g₀.contentOf _ _ (ofInt32 res) g₀.blockSize = .ok bytes :=
    hg.contentOf_ok h4 hmodel
  exact ⟨bytes, hcontent.trans hbytes, hbytes⟩

theorem Generator.nextBlock_ids_lt (h : g.nextBlock d b = .ok (g', r, b')) :
    b'.contId < 2 ^ 32 ∧ b'.blockId < 2 ^ 32 := by
  have hcont := (Generator.nextBlock_content h).1
  obtain ⟨l, pos, ci, res, -, -, -, -, rfl⟩ := Generator.nextBlock_eq_ok.mp h
  exact ⟨Generator.drawContent_lt (u32_lt _) hcont, u32_lt _⟩

/-- The block id fixes the compression index. -/
theorem Loaded.compressionIndex_eq (hg : Loaded g₀ info) (hsum : g₀.blockCounts.sum < 2 ^ 32)
    (hr₁ : Generator.Reach g₀ g₁) (h₁ : g₁.nextBlock d₁ b₁ = .ok (g₁', r₁, b₁'))
    (hr₂ : Generator.Reach g₀ g₂) (h₂ : g₂.nextBlock d₂ b₂ = .ok (g₂', r₂, b₂'))
    (hid : b₁'.blockId = b₂'.blockId) : b₁'.compressionIndex = b₂'.compressionIndex := by
  obtain ⟨i₁, l₁, pos₁, hi₁, h1₁, hle₁, hid₁, hc₁, -⟩ := hg.nextBlock_line hsum hr₁ h₁
  obtain ⟨i₂, l₂, pos₂, hi₂, h1₂, hle₂, hid₂, hc₂, -⟩ := hg.nextBlock_line hsum hr₂ h₂
  have hmem₁ : b₁'.blockId ∈ l₁.ids := ⟨by omega, by omega⟩
  have hmem₂ : b₁'.blockId ∈ l₂.ids := ⟨by omega, by omega⟩
  have hi : i₁ = i₂ := hg.lines.line_unique hsum hi₁ hi₂ hmem₁ hmem₂
  subst hi
  cases hi₁.symm.trans hi₂
  have hpos : pos₁ = pos₂ := by omega
  subst hpos
  exact Except.ok.inj (hc₁.symm.trans hc₂)

/-! ### The identity -/

/-- **Deduplication identity.**  For every distribution whose lines add up to less than `2 ^ 32`
blocks, two blocks handed out at any two times of a run hold the same bytes if and only if they have
the same content id and block id.  So blocks of one id that is not randomised are duplicates, and
blocks of different ids never are. -/
theorem contents_equal_iff_ids {bs n pa pc : ℕ} {file : Option (List Char)} {ld : LoadDraws}
    (h : initializeGenerator (.mk' bs n pa pc) file ld = .ok (g₀, some info, 1)) (h4 : 4096 ∣ bs)
    (hsum : g₀.blockCounts.sum < 2 ^ 32)
    (hr₁ : Generator.Reach g₀ g₁) (h₁ : g₁.nextBlock d₁ b₁ = .ok (g₁', r₁, b₁'))
    (hr₂ : Generator.Reach g₀ g₂) (h₂ : g₂.nextBlock d₂ b₂ = .ok (g₂', r₂, b₂')) :
    ∃ c₁ c₂, g₁'.contentAt r₁ bs = .ok c₁ ∧ g₂'.contentAt r₂ bs = .ok c₂ ∧
      (c₁ = c₂ ↔ (b₁'.contId, b₁'.blockId) = (b₂'.contId, b₂'.blockId)) ∧
      (b₁'.blockId = b₂'.blockId → g₀.randomises b₁'.blockId = false → c₁ = c₂) ∧
      (b₁'.blockId ≠ b₂'.blockId → c₁ ≠ c₂) := by
  obtain ⟨hg, rfl⟩ := loaded_of_initialize h
  obtain ⟨c₁, hat₁, hof₁⟩ := hg.nextBlock_content h4 hr₁ h₁
  obtain ⟨c₂, hat₂, hof₂⟩ := hg.nextBlock_content h4 hr₂ h₂
  obtain ⟨hcont₁, hid₁⟩ := Generator.nextBlock_ids_lt h₁
  obtain ⟨hcont₂, hid₂⟩ := Generator.nextBlock_ids_lt h₂
  have h8 : 8 ≤ g₀.blockSize := le_trans (by decide) hg.blockSize
  have key : c₁ = c₂ ↔ b₁'.contId = b₂'.contId ∧ b₁'.blockId = b₂'.blockId := by
    constructor
    · rintro rfl
      exact Generator.contentOf_injective h8 hcont₁ hcont₂ hid₁ hid₂ hof₁ hof₂
    · rintro ⟨hcont, hid⟩
      have hci := hg.compressionIndex_eq hsum hr₁ h₁ hr₂ h₂ hid
      rw [hcont, hid, hci] at hof₁
      exact Except.ok.inj (hof₁.symm.trans hof₂)
  refine ⟨c₁, c₂, hat₁, hat₂, by rw [key, Prod.mk.injEq], ?_, ?_⟩
  · intro hid hrand
    have hdraw₁ := (Generator.nextBlock_content h₁).1
    have hdraw₂ := (Generator.nextBlock_content h₂).1
    rw [Generator.drawContent_of_frame hr₁.frame_eq, Generator.drawContent, hrand] at hdraw₁
    rw [Generator.drawContent_of_frame hr₂.frame_eq, Generator.drawContent, ← hid, hrand] at hdraw₂
    exact key.mpr ⟨Except.ok.inj (hdraw₁.symm.trans hdraw₂), hid⟩
  · intro hid hc
    exact hid (key.mp hc).2

theorem plainDistribution_contents : ∃ g info g₁ r₁ b₁ g₂ r₂ b₂ c₁ c₂,
    initializeGenerator (.mk' 4096 256 2 25) (some plainDistribution) plainDraws = .ok (g, some info, 1) ∧
      g.nextBlock ⟨1, 3, 0⟩ ⟨0, 0, 0, 0, 0⟩ = .ok (g₁, r₁, b₁) ∧
      g₁.nextBlock ⟨1, 3, 7⟩ ⟨0, 0, 0, 0, 0⟩ = .ok (g₂, r₂, b₂) ∧
      g₁.contentAt r₁ 4096 = .ok c₁ ∧ g₂.contentAt r₂ 4096 = .ok c₂ ∧ c₁ = c₂ := by
  obtain ⟨g, info, h, hg⟩ := exists_of_loadsWith (x := initializeGenerator (.mk' 4096 256 2 25)
    (some plainDistribution) plainDraws) (T := fun g _ => g.blockCounts.sum = 192 ∧
      okWith (g.nextBlock ⟨1, 3, 0⟩ ⟨0, 0, 0, 0, 0⟩) fun x =>
        x.2.2.contId = 132 ∧ x.2.2.blockId = 132 ∧
        okWith (x.1.nextBlock ⟨1, 3, 7⟩ ⟨0, 0, 0, 0, 0⟩) fun y => y.2.2.contId = 132 ∧ y.2.2.blockId = 132)
    (by decide +kernel)
  obtain ⟨hsum, hn⟩ := of_decide_eq_true hg
  obtain ⟨⟨g₁, r₁, b₁⟩, h₁, hn⟩ := exists_of_okWith hn
  obtain ⟨hcont₁, hid₁, hn⟩ := of_decide_eq_true hn
  obtain ⟨⟨g₂, r₂, b₂⟩, h₂, hb⟩ := exists_of_okWith hn
  obtain ⟨hcont₂, hid₂⟩ := of_decide_eq_true hb
  obtain ⟨c₁, c₂, hc₁, hc₂, hiff, -⟩ :=
    contents_equal_iff_ids h (by decide) (by omega) .refl h₁ (.next .refl h₁) h₂
  refine ⟨g, info, g₁, r₁, b₁, g₂, r₂, b₂, c₁, c₂, h, h₁, h₂, hc₁, hc₂, hiff.mpr ?_⟩
  rw [hcont₁, hid₁, hcont₂, hid₂]

/-- Behind the stamp, a block has the bytes of its model as it was built. -/
theorem getElem?_contentOf {bs n pa pc id c cont k : ℕ} {file : Option (List Char)} {d : LoadDraws}
    {l : List UInt8} (h : initializeGenerator (.mk' bs n pa pc) file d = .ok (g, some info, 1))
    (hr : g.getModelByIdAndCompression id c = .ok r) (hl : g.contentOf id c cont bs = .ok l) (hk : 8 ≤ k ∧ k < bs) :
    l[k]? = some (repeated (bs / 100) (5 + 10 * r.compression)
      ((fillBlock (d.seed r.indice))^[bs / 4096] (d.fresh r.indice (5 + 10 * r.compression))) k) := by
  obtain ⟨text, s, interval, modelos, x, -, hbs, -, -, hmodels, -, rfl, -⟩ := initialize_eq_ok h
  simp only [Generator.contentOf, hr, bind_ok, bind_eq_ok] at hl
  obtain ⟨m, hm, hbytes⟩ := hl
  obtain ⟨hsize, rfl⟩ := Buffer.bytes_eq_ok.mp hbytes
  rw [getElem?_read hk.2, Nat.zero_add, Buffer.stamp_byte_of_ge hk.1]
  obtain ⟨ms, hms, hmem⟩ := Generator.modelAt_eq_ok.mp hm
  obtain ⟨hc, hmodel⟩ := buildModels_modelAt hmodels hms hmem
  have hread := (blockModel_bytes hbs (modelCompressions_bounds hc) hmodel (Buffer.bytes_eq_ok.mpr ⟨hsize, rfl⟩)).2
  have hbyte := read_eq_read_iff.mp hread k hk.2
  rw [Nat.zero_add] at hbyte
  rw [hbyte]

/-- One id in two lines: the same ids, but not the same bytes. -/
theorem wrapDistribution_contents : ∃ g info g₁ r₁ b₁ g₂ r₂ b₂ c₁ c₂,
    initializeGenerator (.mk' 1048576 1 1 25) (some wrapDistribution) plainDraws = .ok (g, some info, 1) ∧
      g.nextBlock ⟨0, 999, 0⟩ ⟨0, 0, 0, 0, 0⟩ = .ok (g₁, r₁, b₁) ∧
      g₁.nextBlock ⟨2, 327, 0⟩ ⟨0, 0, 0, 0, 0⟩ = .ok (g₂, r₂, b₂) ∧
      (b₁.contId, b₁.blockId) = (b₂.contId, b₂.blockId) ∧
      g₁.contentAt r₁ 1048576 = .ok c₁ ∧ g₂.contentAt r₂ 1048576 = .ok c₂ ∧ c₁ ≠ c₂ := by
  obtain ⟨g, info, h, hg⟩ := exists_of_loadsWith (x := initializeGenerator (.mk' 1048576 1 1 25)
    (some wrapDistribution) plainDraws) (T := fun g _ =>
      okWith (g.getModelByIdAndCompression 1000 0) (fun r => r.compression = 0) ∧
      okWith (g.getModelByIdAndCompression 1000 1) (fun r => r.compression = 1) ∧
      okWith (g.nextBlock ⟨0, 999, 0⟩ ⟨0, 0, 0, 0, 0⟩) fun x =>
        x.2.2.contId = 1000 ∧ x.2.2.blockId = 1000 ∧ x.2.2.compressionIndex = 0 ∧
        okWith (x.1.nextBlock ⟨2, 327, 0⟩ ⟨0, 0, 0, 0, 0⟩) fun y =>
          y.2.2.contId = 1000 ∧ y.2.2.blockId = 1000 ∧ y.2.2.compressionIndex = 1)
    (by decide +kernel)
  obtain ⟨hm₁, hm₂, hn⟩ := of_decide_eq_true hg
  obtain ⟨m₁, hm₁, hcomp₁⟩ := exists_of_okWith hm₁
  obtain ⟨m₂, hm₂, hcomp₂⟩ := exists_of_okWith hm₂
  have hcomp₁ : m₁.compression = 0 := of_decide_eq_true hcomp₁
  have hcomp₂ : m₂.compression = 1 := of_decide_eq_true hcomp₂
  obtain ⟨⟨g₁, r₁, b₁⟩, h₁, hn⟩ := exists_of_okWith hn
  obtain ⟨hcont₁, hid₁, hci₁, hn⟩ := of_decide_eq_true hn
  obtain ⟨⟨g₂, r₂, b₂⟩, h₂, hn⟩ := exists_of_okWith hn
  obtain ⟨hcont₂, hid₂, hci₂⟩ := of_decide_eq_true hn
  dsimp only at hcont₁ hid₁ hci₁ hcont₂ hid₂ hci₂
  obtain ⟨hl, hbs⟩ := loaded_of_initialize h
  have h4 : 4096 ∣ g.blockSize := by rw [hbs]; decide
  obtain ⟨c₁, hc₁, hof₁⟩ := hl.nextBlock_content h4 .refl h₁
  obtain ⟨c₂, hc₂, hof₂⟩ := hl.nextBlock_content h4 (.next .refl h₁) h₂
  rw [hbs] at hc₁ hof₁ hc₂ hof₂
  rw [hid₁, hci₁] at hof₁
  rw [hid₂, hci₂] at hof₂
  refine ⟨g, info, g₁, r₁, b₁, g₂, r₂, b₂, c₁, c₂, h, h₁, h₂, ?_, hc₁, hc₂, fun heq => ?_⟩
  · rw [hcont₁, hid₁, hcont₂, hid₂]
  · -- the byte is in the repeated part of the second block only
    have hbyte₁ : c₁[52432]? = some 0 := by
      rw [getElem?_contentOf h hm₁ hof₁ (by decide), hcomp₁, repeated, if_neg (by decide),
        fillBlocks_of_ge (by decide)]
      rfl
    have hbyte₂ : c₂[52432]? = some 63 := by
      have hone : fillBlock 1.5 (fun _ => 0) 7 = 63 := by decide +kernel
      have hfill : ∀ m, (fillBlock 1.5)^[256] m 7 = 63 := fun m => (fillBlocks_eq (by decide) (by decide)).trans hone
      have hseed : plainDraws.seed m₂.indice = 1.5 := rfl
      rw [getElem?_contentOf h hm₂ hof₂ (by decide), hcomp₂, hseed, repeated, if_pos (by decide),
        show 52432 % (1048576 / 100) = 7 from rfl, show 1048576 / 4096 = 256 from rfl, hfill]
    rw [heq, hbyte₂] at hbyte₁
    exact absurd hbyte₁ (by decide)

end Dedisbench
