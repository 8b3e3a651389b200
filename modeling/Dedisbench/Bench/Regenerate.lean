import Dedisbench.Bench.Checker

/-!
# Building a block again, and the error code

`generate_data` returns the content id as an `int`, its wrapper in `generatorW.cpp` returns `-1` when there is no
generator, and `get_block_content` ends the process on `-1`.  The largest content id that can be drawn is that `-1`:
`regenerates_iff` says when a block is built again, and is the one of its tracker entry.
-/

namespace Dedisbench

open ByteMem ExceptRun

variable {g g₀ g₁ g₂ : Generator} {info : DuplicatesInfo} {e b : BlockInfo} {d : Generator.Draw} {r : ModelRef} {raw : ℕ}

/-- `generate_data` of `generatorW.cpp`: without a generator there is nothing but the error code. -/
def generateDataW (g : Option Generator) (blockId compression raw : ℕ) : Exec (Option (Generator × ModelRef) × ℤ) :=
  match g with
  | none => .ok (none, -1)
  | some g => do
    let (g, buffer, res) ← g.generateData blockId compression raw
    .ok (some (g, buffer), res)

/-- The block of a tracker entry is built again: `generate_data` does not return the error code of a missing generator,
and the buffer is the model of the block with the ids of the entry. -/
structure Regenerates (g : Generator) (e : BlockInfo) (raw : ℕ) : Prop where
  result : ∃ x res, generateDataW (some g) e.blockId e.compressionIndex raw = .ok (x, res) ∧ res ≠ -1
  content : ∃ g' r, getBlockContent g e raw = .ok (g', r) ∧
    ∀ n, g'.contentAt r n = g.contentOf e.blockId e.compressionIndex e.contId n

/-- **The error code is one of the results**: `generate_data` returns `-1` for the content id `2 ^ 32 - 1`. -/
theorem Loaded.generateDataW_result (hg : Loaded g info) (hid : e.blockId < 2 ^ 32)
    (hr : g.getModelByIdAndCompression e.blockId e.compressionIndex = .ok r) :
    ∃ x res, generateDataW (some g) e.blockId e.compressionIndex raw = .ok (x, res) ∧
      (res = -1 ↔ g.drawn e.blockId raw = uintMax) := by
  obtain ⟨m, hm⟩ := Generator.modelAt_of_getModel hr
  have hgen : g.generateData e.blockId e.compressionIndex raw =
      .ok (g.setModel r (m.stamp (g.drawn e.blockId raw) e.blockId), r, toInt32 (g.drawn e.blockId raw)) :=
    Generator.generateData_eq_ok.mpr ⟨_, m, hr, hg.drawContent_eq _ _, hm, hg.eight_le_size hm, rfl, rfl⟩
  simp only [generateDataW, hgen, bind_ok]
  exact ⟨_, _, rfl, toInt32_eq_neg_one (hg.drawn_lt hid)⟩

/-- The ids of a block can be told from its first eight bytes. -/
theorem Loaded.contentOf_inj (hg : Loaded g info) (hid : e.blockId < 2 ^ 32)
    (hr : g.getModelByIdAndCompression e.blockId e.compressionIndex = .ok r) {cont cont' : ℕ} (hcont : cont < 2 ^ 32)
    (hcont' : cont' < 2 ^ 32)
    (h : g.contentOf e.blockId e.compressionIndex cont 8 = g.contentOf e.blockId e.compressionIndex cont' 8) :
    cont = cont' := by
  obtain ⟨m, hm⟩ := Generator.modelAt_of_getModel hr
  have hbytes : ∃ l, g.contentOf e.blockId e.compressionIndex cont 8 = .ok l := by
    refine ⟨read (m.stamp cont e.blockId).byte 0 8, ?_⟩
    simp only [Generator.contentOf, hr, hm, bind_ok]
    exact Buffer.bytes_eq_ok.mpr ⟨by rw [Buffer.size_stamp]; exact hg.eight_le_size hm, rfl⟩
  obtain ⟨l, hl⟩ := hbytes
  exact (Generator.contentOf_injective le_rfl hcont hcont' hid hid hl (h.symm.trans hl)).1

/-- The block that is built again is the one of its entry if its content id is restored, or drawn again. -/
theorem Loaded.rebuilds_iff (hg : Loaded g info) (hid : e.blockId < 2 ^ 32) (hcont : e.contId < 2 ^ 32)
    (hr : g.getModelByIdAndCompression e.blockId e.compressionIndex = .ok r) :
    Regenerates g e raw ↔ g.drawn e.blockId raw ≠ uintMax ∧
      (e.flagUniqueBlock = 1 ∨ g.drawn e.blockId raw = e.contId) := by
  obtain ⟨x, res, hres, hneg⟩ : ∃ x res, generateDataW (some g) e.blockId e.compressionIndex raw = .ok (x, res) ∧
      (res = -1 ↔ g.drawn e.blockId raw = uintMax) := hg.generateDataW_result hid hr
  constructor
  · rintro ⟨-, g', r', hget, hcontent⟩
    have hd := ((hg.getBlockContent_ok_iff hid).mp ⟨_, hget⟩).2
    refine ⟨hd, ?_⟩
    obtain ⟨g'', hget', -, hcontent'⟩ := hg.getBlockContent_ok hid hr hd
    obtain ⟨rfl, rfl⟩ := Prod.mk.inj (Except.ok.inj (hget.symm.trans hget'))
    by_cases hflag : e.flagUniqueBlock = 1
    · exact .inl hflag
    · have hsame := (hcontent' 8).symm.trans (hcontent 8)
      rw [if_neg hflag] at hsame
      exact .inr (hg.contentOf_inj hid hr (hg.drawn_lt hid) hcont hsame)
  · rintro ⟨hd, hids⟩
    refine ⟨⟨x, res, hres, mt hneg.mp hd⟩, ?_⟩
    obtain ⟨g', hget, -, hcontent⟩ := hg.getBlockContent_ok hid hr hd
    refine ⟨g', r, hget, fun n => ?_⟩
    rw [hcontent n]
    split
    · rfl
    next hflag => rw [hids.resolve_left hflag]

/-- **When a block is built again.**  For an entry that `nextBlock` made at any time of a run and a generator with any
stamps on its models: if the content id drawn is not `2 ^ 32 - 1`, and the one of the entry is put back or is drawn
again. -/
theorem regenerates_iff {bs n pa pc : ℕ} {file : Option (List Char)} {ld : LoadDraws}
    (h : initializeGenerator (.mk' bs n pa pc) file ld = .ok (g₀, some info, 1)) (hr : Generator.Reach g₀ g₁)
    (hn : g₁.nextBlock d b = .ok (g₂, r, e)) (hf : g.frame = g₀.frame) (raw : ℕ) :
    Regenerates g e raw ↔ g₀.drawn e.blockId raw ≠ uintMax ∧
      (e.flagUniqueBlock = 1 ∨ g₀.drawn e.blockId raw = e.contId) := by
  obtain ⟨hg₀, -⟩ := loaded_of_initialize h
  obtain ⟨hcont, hid⟩ := Generator.nextBlock_ids_lt hn
  have hmodel : g₀.getModelByIdAndCompression e.blockId e.compressionIndex = .ok r := by
    obtain ⟨l, pos, ci, res, -, -, -, hgen, rfl⟩ := Generator.nextBlock_eq_ok.mp hn
    obtain ⟨cont, m, hmodel, -⟩ := Generator.generateData_eq_ok.mp hgen
    rwa [Generator.getModel_of_frame hr.frame_eq] at hmodel
  rw [(hg₀.of_frame hf).rebuilds_iff hid hcont (by rwa [Generator.getModel_of_frame hf]), Generator.drawn_of_frame hf]

theorem plainDistribution_regenerates : ∃ g info g' r e,
    initializeGenerator (.mk' 4096 256 2 25) (some plainDistribution) plainDraws = .ok (g, some info, 1) ∧
      g.nextBlock ⟨0, 0, 5⟩ ⟨0, 0, 0, 0, 0⟩ = .ok (g', r, e) ∧ Regenerates g e 7 := by
  obtain ⟨g, info, h, hg⟩ := exists_of_loadsWith (x := initializeGenerator (.mk' 4096 256 2 25)
    (some plainDistribution) plainDraws) (T := fun g _ => okWith (g.nextBlock ⟨0, 0, 5⟩ ⟨0, 0, 0, 0, 0⟩) fun x =>
      x.2.2.flagUniqueBlock = 1 ∧ g.drawn x.2.2.blockId 7 ≠ uintMax) (by decide +kernel)
  obtain ⟨⟨g', r, e⟩, hn, he⟩ := exists_of_okWith hg
  obtain ⟨hflag, hd⟩ := of_decide_eq_true he
  exact ⟨g, info, g', r, e, h, hn, (regenerates_iff h .refl hn rfl 7).mpr ⟨hd, .inl hflag⟩⟩

/-- The draw `2 ^ 32 - 1 - 192` makes the content id `2 ^ 32 - 1`, and the process ends. -/
theorem plainDistribution_exits : ∃ g info g' r e,
    initializeGenerator (.mk' 4096 256 2 25) (some plainDistribution) plainDraws = .ok (g, some info, 1) ∧
      g.nextBlock ⟨0, 0, 5⟩ ⟨0, 0, 0, 0, 0⟩ = .ok (g', r, e) ∧
      getBlockContent g e (uintMax - 192) = .error .exit ∧ ¬ Regenerates g e (uintMax - 192) := by
  obtain ⟨g, info, h, hg⟩ := exists_of_loadsWith (x := initializeGenerator (.mk' 4096 256 2 25)
    (some plainDistribution) plainDraws) (T := fun g _ => okWith (g.nextBlock ⟨0, 0, 5⟩ ⟨0, 0, 0, 0, 0⟩) fun x =>
      failsWith (getBlockContent g x.2.2 (uintMax - 192)) .exit) (by decide +kernel)
  obtain ⟨⟨g', r, e⟩, hn, he⟩ := exists_of_okWith hg
  have hexit := eq_error_of_failsWith he
  refine ⟨g, info, g', r, e, h, hn, hexit, fun hre => ?_⟩
  obtain ⟨g'', r', hget, -⟩ := hre.content
  rw [hexit] at hget
  cases hget

end Dedisbench
