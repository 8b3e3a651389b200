import Dedisbench.Generator.Loaded

/-!
# What is in a block

`nextBlock` and `generateData` hand out a model buffer of the generator itself, stamped in place
with a content id and a block id.  `Generator.frame` is the generator with the stamps wiped off: no
call changes it (`generateData_frame`, `Reach.frame_eq`).  `Generator.contentOf` is the content of a
block by its ids and its compression index; it is a function of the frame (`contentOf_frame`), so
that a block can be built again at any later time, and it is what `generateData` hands out
(`generateData_content`).
-/

namespace Dedisbench

open ByteMem ExceptRun

/-! ### Stamps -/

/-- The buffer with its stamp, the first eight bytes, wiped off. -/
def Buffer.unstamp (b : Buffer) : Buffer := { b with byte := write b.byte 0 8 fun _ => 0 }

/-- The buffer stamped with a content id and a block id. -/
def Buffer.stamp (b : Buffer) (contId blockId : ℕ) : Buffer :=
  { b with byte := write (write b.byte 0 4 (le32 contId)) 4 4 (le32 blockId) }

@[simp] theorem Buffer.size_stamp (b : Buffer) (c i : ℕ) : (b.stamp c i).size = b.size := rfl

@[simp] theorem Buffer.size_unstamp (b : Buffer) : b.unstamp.size = b.size := rfl

theorem Buffer.stamp_byte_of_ge {b : Buffer} {c i k : ℕ} (h : 8 ≤ k) : (b.stamp c i).byte k = b.byte k := by
  show write (write b.byte 0 4 (le32 c)) 4 4 (le32 i) k = b.byte k
  rw [write_of_ge (by omega), write_of_ge (by omega)]

theorem Buffer.stamp_byte_of_lt {b b' : Buffer} {c i k : ℕ} (h : k < 8) :
    (b.stamp c i).byte k = (b'.stamp c i).byte k := by
  show write (write b.byte 0 4 (le32 c)) 4 4 (le32 i) k = write (write b'.byte 0 4 (le32 c)) 4 4 (le32 i) k
  unfold write
  by_cases h4 : 4 ≤ k ∧ k < 4 + 4
  · rw [if_pos h4, if_pos h4]
  · rw [if_neg h4, if_neg h4, if_pos (by omega), if_pos (by omega)]

theorem Buffer.unstamp_byte_of_ge {b : Buffer} {k : ℕ} (h : 8 ≤ k) : b.unstamp.byte k = b.byte k := by
  show write b.byte 0 8 (fun _ => 0) k = b.byte k
  rw [write_of_ge (by omega)]

theorem Buffer.unstamp_eq {b b' : Buffer} (hs : b.size = b'.size) (h : ∀ k, 8 ≤ k → b.byte k = b'.byte k) :
    b.unstamp = b'.unstamp := by
  have hb : write b.byte 0 8 (fun _ => 0) = write b'.byte 0 8 fun _ => 0 := by
    funext k
    by_cases hk : k < 8
    · rw [write, write, if_pos (by omega), if_pos (by omega)]
    · rw [write_of_ge (by omega), write_of_ge (by omega)]
      exact h k (by omega)
  unfold Buffer.unstamp
  rw [hb, hs]

@[simp] theorem Buffer.unstamp_stamp (b : Buffer) (c i : ℕ) : (b.stamp c i).unstamp = b.unstamp :=
  Buffer.unstamp_eq rfl fun _ hk => Buffer.stamp_byte_of_ge hk

/-- A stamp hides the one that was there. -/
@[simp] theorem Buffer.stamp_unstamp (b : Buffer) (c i : ℕ) : b.unstamp.stamp c i = b.stamp c i := by
  have hb : (b.unstamp.stamp c i).byte = (b.stamp c i).byte := by
    funext k
    by_cases hk : k < 8
    · exact stamp_byte_of_lt hk
    · rw [stamp_byte_of_ge (by omega), stamp_byte_of_ge (by omega), unstamp_byte_of_ge (by omega)]
  calc b.unstamp.stamp c i = ⟨b.size, (b.unstamp.stamp c i).byte⟩ := rfl
    _ = ⟨b.size, (b.stamp c i).byte⟩ := by rw [hb]
    _ = b.stamp c i := rfl

/-- The content id stamped over, the block id kept. -/
theorem Buffer.stamp_restamp (b : Buffer) (c c' i : ℕ) :
    write (b.stamp c i).byte 0 4 (le32 c') = (b.stamp c' i).byte := by
  funext k
  show write (write (write b.byte 0 4 (le32 c)) 4 4 (le32 i)) 0 4 (le32 c') k
    = write (write b.byte 0 4 (le32 c')) 4 4 (le32 i) k
  by_cases h4 : k < 4
  · simp [write, h4]
  · by_cases h8 : k < 8
    · simp [write, h4, h8]
    · rw [write_of_ge (by omega), write_of_ge (by omega), write_of_ge (by omega), write_of_ge (by omega),
        write_of_ge (by omega)]

theorem Buffer.word32_stamp_contId (b : Buffer) {c : ℕ} (i : ℕ) (hc : c < 2 ^ 32) :
    word32 (b.stamp c i).byte 0 = c := by
  calc word32 (b.stamp c i).byte 0 = word32 (write b.byte 0 4 (le32 c)) 0 :=
        word32_congr fun k hk => write_of_lt (by omega)
    _ = c := word32_write_le32 _ _ hc

theorem Buffer.word32_stamp_blockId (b : Buffer) (c : ℕ) {i : ℕ} (hi : i < 2 ^ 32) :
    word32 (b.stamp c i).byte 4 = i := word32_write_le32 _ _ hi

/-- **The stamp tells the ids apart**, whatever the buffers behind it. -/
theorem Buffer.stamp_injective {b b' : Buffer} {c c' i i' n : ℕ} (hn : 8 ≤ n) (hc : c < 2 ^ 32)
    (hc' : c' < 2 ^ 32) (hi : i < 2 ^ 32) (hi' : i' < 2 ^ 32)
    (h : read (b.stamp c i).byte 0 n = read (b'.stamp c' i').byte 0 n) : c = c' ∧ i = i' := by
  constructor
  · rw [← b.word32_stamp_contId i hc, ← b'.word32_stamp_contId i' hc']
    exact word32_of_read h (by omega)
  · rw [← b.word32_stamp_blockId c hi, ← b'.word32_stamp_blockId c' hi']
    exact word32_of_read h hn

namespace Generator

variable {g g' g'' : Generator} {r : ModelRef} {id c raw : ℕ}

/-! ### The frame -/

/-- The generator with the stamps wiped off its models. -/
def frame (g : Generator) : Generator := { g with modelos := g.modelos.map (List.map Buffer.unstamp) }

theorem modelAt_eq_ok {b : Buffer} :
    g.modelAt r = .ok b ↔ ∃ m, g.modelos[r.indice]? = some m ∧ m[r.compression]? = some b := by
  rw [modelAt, bind_eq_ok]
  simp only [vecAt_eq_ok]

theorem modelAt_frame : g.frame.modelAt r = (g.modelAt r).map Buffer.unstamp := by
  unfold modelAt frame vecAt
  simp only [List.getElem?_map]
  cases hm : g.modelos[r.indice]? with
  | none => rfl
  | some m =>
    simp only [Option.map_some, bind_ok, List.getElem?_map]
    cases m[r.compression]? <;> rfl

theorem modelAt_setModel {b b' : Buffer} (h : g.modelAt r = .ok b) : (g.setModel r b').modelAt r = .ok b' := by
  obtain ⟨m, hm, hb⟩ := modelAt_eq_ok.mp h
  refine modelAt_eq_ok.mpr ⟨m.set r.compression b', ?_, ?_⟩
  · rw [setModel, List.getElem?_modify, hm]; simp
  · rw [List.getElem?_set, if_pos rfl, if_pos (List.getElem?_eq_some_iff.mp hb).1]

/-- A change to the stamp of a model is no change to the frame. -/
theorem frame_setModel {b b' : Buffer} (h : g.modelAt r = .ok b) (hb : b'.unstamp = b.unstamp) :
    (g.setModel r b').frame = g.frame := by
  obtain ⟨m, hm, hbm⟩ := modelAt_eq_ok.mp h
  have hset : (m.set r.compression b').map Buffer.unstamp = m.map Buffer.unstamp := by
    refine List.ext_getElem? fun j => ?_
    rw [List.getElem?_map, List.getElem?_map, List.getElem?_set]
    by_cases hj : r.compression = j
    · subst hj
      rw [if_pos rfl, if_pos (List.getElem?_eq_some_iff.mp hbm).1, hbm, Option.map_some, hb, Option.map_some]
    · rw [if_neg hj]
  have hmod : (g.modelos.modify r.indice fun m => m.set r.compression b').map (List.map Buffer.unstamp)
      = g.modelos.map (List.map Buffer.unstamp) := by
    refine List.ext_getElem? fun i => ?_
    rw [List.getElem?_map, List.getElem?_map, List.getElem?_modify]
    by_cases hi : r.indice = i
    · subst hi
      simp only [hm, if_true, Option.map_eq_map, Option.map_some, hset]
    · simp [hi]
  simp only [frame, setModel, hmod]

@[simp] theorem frame_linhas : g.frame.linhas = g.linhas := rfl

@[simp] theorem frame_atribuicao : g.frame.atribuicao = g.atribuicao := rfl

theorem getModelByIdAndCompression_frame :
    g.frame.getModelByIdAndCompression id c = g.getModelByIdAndCompression id c := by
  unfold getModelByIdAndCompression
  rw [frame_atribuicao]
  cases g.atribuicao with
  | nil => rfl
  | cons a rest =>
    simp only [modelAt_frame]
    cases modelLoop id rest 0 a with
    | error e => rfl
    | ok indice => simp only [bind_ok]; cases g.modelAt ⟨indice, c⟩ <;> rfl

theorem linhas_of_frame (h : g'.frame = g.frame) : g'.linhas = g.linhas := by
  have h' := congrArg Generator.linhas h
  exact h'

theorem atribuicao_of_frame (h : g'.frame = g.frame) : g'.atribuicao = g.atribuicao := by
  have h' := congrArg Generator.atribuicao h
  exact h'

theorem total_of_frame (h : g'.frame = g.frame) : g'.totalUniqueBlocks = g.totalUniqueBlocks := by
  have h' := congrArg Generator.totalUniqueBlocks h
  exact h'

theorem weights_of_frame (h : g'.frame = g.frame) : g'.weights = g.weights := by
  have h' := congrArg Generator.weights h
  exact h'

theorem blockSize_of_frame (h : g'.frame = g.frame) : g'.blockSize = g.blockSize := by
  have h' := congrArg Generator.blockSize h
  exact h'

theorem randomises_of_frame (h : g'.frame = g.frame) : g'.randomises id = g.randomises id := by
  rw [randomises, randomises, linhas_of_frame h]

theorem drawContent_of_frame (h : g'.frame = g.frame) : g'.drawContent id raw = g.drawContent id raw := by
  rw [drawContent, drawContent, randomises_of_frame h, total_of_frame h]

/-! ### Contents -/

/-- The first `n` bytes of the block with the given ids and compression index. -/
def contentOf (g : Generator) (blockId compression contId n : ℕ) : Exec (List UInt8) := do
  let r ← g.getModelByIdAndCompression blockId compression
  let b ← g.modelAt r
  (b.stamp contId blockId).bytes n

theorem contentOf_frame {cont n : ℕ} : g.frame.contentOf id c cont n = g.contentOf id c cont n := by
  unfold contentOf
  rw [getModelByIdAndCompression_frame]
  cases g.getModelByIdAndCompression id c with
  | error e => rfl
  | ok r =>
    simp only [bind_ok, modelAt_frame]
    cases g.modelAt r with
    | error e => rfl
    | ok b => simp only [Except.map, bind_ok, Buffer.stamp_unstamp]

/-- **The content of a block depends on the frame alone.** -/
theorem contentOf_of_frame {cont n : ℕ} (h : g'.frame = g.frame) :
    g'.contentOf id c cont n = g.contentOf id c cont n := by
  rw [← contentOf_frame, h, contentOf_frame]

/-- The content is read from a model with the ids stamped on it. -/
theorem stamped_of_contentOf {cont n : ℕ} {l : List UInt8} (h : g.contentOf id c cont n = .ok l) :
    ∃ b : Buffer, l = read (b.stamp cont id).byte 0 n := by
  simp only [contentOf, bind_eq_ok, Buffer.bytes_eq_ok] at h
  obtain ⟨r, -, b, -, -, hl⟩ := h
  exact ⟨b, hl.symm⟩

/-- The ids of a block are in its content. -/
theorem contentOf_injective {id' c' cont cont' n : ℕ} {l : List UInt8} (hn : 8 ≤ n)
    (hcont : cont < 2 ^ 32) (hcont' : cont' < 2 ^ 32) (hid : id < 2 ^ 32) (hid' : id' < 2 ^ 32)
    (h : g.contentOf id c cont n = .ok l) (h' : g'.contentOf id' c' cont' n = .ok l) :
    cont = cont' ∧ id = id' := by
  obtain ⟨b, hl⟩ := stamped_of_contentOf h
  obtain ⟨b', hl'⟩ := stamped_of_contentOf h'
  exact Buffer.stamp_injective hn hcont hcont' hid hid' (hl.symm.trans hl')

theorem exists_model_of_contentOf {cont n : ℕ} {l : List UInt8} (h : g.contentOf id c cont n = .ok l) :
    ∃ r, g.getModelByIdAndCompression id c = .ok r := by
  rw [contentOf, bind_eq_ok] at h
  obtain ⟨r, hr, -⟩ := h
  exact ⟨r, hr⟩

theorem contentOf_length {cont n : ℕ} {l : List UInt8} (h : g.contentOf id c cont n = .ok l) : l.length = n := by
  obtain ⟨b, rfl⟩ := stamped_of_contentOf h
  exact length_read _ _ _

/-! ### `generateData` -/

theorem modelAt_of_getModel (h : g.getModelByIdAndCompression id c = .ok r) : ∃ b, g.modelAt r = .ok b := by
  unfold getModelByIdAndCompression at h
  split at h
  · cases h
  · simp only [bind_eq_ok] at h
    obtain ⟨indice, -, b, hb, h⟩ := h
    cases h
    exact ⟨b, hb⟩

theorem drawContent_lt (hid : id < 2 ^ 32) {cont : ℕ} (h : g.drawContent id raw = .ok cont) : cont < 2 ^ 32 := by
  unfold drawContent at h
  split at h
  · have := (uniformInt_eq_ok h).2
    unfold uintMax at this
    omega
  · cases h
    exact hid

/-- What `generateData` does: it draws the content id and stamps the model of the block. -/
theorem generateData_eq_ok {res : ℤ} : g.generateData id c raw = .ok (g', r, res) ↔
    ∃ cont b, g.getModelByIdAndCompression id c = .ok r ∧ g.drawContent id raw = .ok cont ∧
      g.modelAt r = .ok b ∧ 8 ≤ b.size ∧ g' = g.setModel r (b.stamp cont id) ∧ res = toInt32 cont := by
  unfold generateData
  constructor
  · intro h
    simp only [bind_eq_ok, Buffer.memcpy_eq_ok] at h
    obtain ⟨r', hr, cont, hcont, b, hb, b₁, ⟨-, rfl⟩, b₂, ⟨hsize, rfl⟩, h⟩ := h
    cases h
    exact ⟨cont, b, hr, hcont, hb, hsize, rfl, rfl⟩
  · rintro ⟨cont, b, hr, hcont, hb, hsize, rfl, rfl⟩
    simp only [bind_eq_ok, Buffer.memcpy_eq_ok]
    exact ⟨r, hr, cont, hcont, b, hb, _, ⟨by omega, rfl⟩, _, ⟨hsize, rfl⟩, rfl⟩

/-- **Frame.**  `generateData` changes stamps only. -/
theorem generateData_frame {res : ℤ} (h : g.generateData id c raw = .ok (g', r, res)) : g'.frame = g.frame := by
  obtain ⟨cont, b, -, -, hb, -, rfl, -⟩ := generateData_eq_ok.mp h
  exact frame_setModel hb (Buffer.unstamp_stamp b cont id)

/-- **The buffer `generateData` hands out.** -/
theorem generateData_content {res : ℤ} (h : g.generateData id c raw = .ok (g', r, res)) :
    ∃ cont, g.drawContent id raw = .ok cont ∧ res = toInt32 cont ∧
      ∀ n, g'.contentAt r n = g.contentOf id c cont n := by
  obtain ⟨cont, b, hr, hcont, hb, -, rfl, rfl⟩ := generateData_eq_ok.mp h
  refine ⟨cont, hcont, rfl, fun n => ?_⟩
  simp only [contentAt, contentOf, modelAt_setModel hb, hr, hb, bind_ok]

/-! ### `nextBlock` -/

/-- What `nextBlock` does: a line, a position in it, and `generateData` for the id there. -/
theorem nextBlock_eq_ok {d : Draw} {b b' : BlockInfo} : g.nextBlock d b = .ok (g', r, b') ↔
    ∃ l pos ci res, g.getLinha d.line = .ok l ∧ getRandomBlockFromLine l d.pos = .ok pos ∧
      giveMyCompression l pos = .ok ci ∧
      g.generateData (u32 (pos + l.nrBase)) ci d.content = .ok (g', r, res) ∧
      b' = { b with
        blockId := u32 (pos + l.nrBase)
        contId := ofInt32 res
        compressionIndex := ci
        flagUniqueBlock := if l.nrCopies = 0 then 1 else 0 } := by
  unfold nextBlock
  constructor
  · intro h
    simp only [bind_eq_ok] at h
    obtain ⟨l, hl, pos, hpos, ci, hci, ⟨g₁, r₁, res⟩, hgen, h⟩ := h
    cases h
    exact ⟨l, pos, ci, res, hl, hpos, hci, hgen, rfl⟩
  · rintro ⟨l, pos, ci, res, hl, hpos, hci, hgen, rfl⟩
    simp only [bind_eq_ok]
    exact ⟨l, hl, pos, hpos, ci, hci, ⟨g', r, res⟩, hgen, rfl⟩

theorem nextBlock_frame {d : Draw} {b b' : BlockInfo} (h : g.nextBlock d b = .ok (g', r, b')) :
    g'.frame = g.frame := by
  obtain ⟨l, pos, ci, res, -, -, -, hgen, -⟩ := nextBlock_eq_ok.mp h
  exact generateData_frame hgen

/-- **The buffer `nextBlock` hands out** is the content of the block it describes. -/
theorem nextBlock_content {d : Draw} {b b' : BlockInfo} (h : g.nextBlock d b = .ok (g', r, b')) :
    g.drawContent b'.blockId d.content = .ok b'.contId ∧
      ∀ n, g'.contentAt r n = g.contentOf b'.blockId b'.compressionIndex b'.contId n := by
  obtain ⟨l, pos, ci, res, -, -, -, hgen, rfl⟩ := nextBlock_eq_ok.mp h
  obtain ⟨cont, hcont, rfl, hcontent⟩ := generateData_content hgen
  have hlt : cont < 2 ^ 32 := drawContent_lt (u32_lt _) hcont
  simp only [ofInt32_toInt32 hlt]
  exact ⟨hcont, hcontent⟩

/-! ### Runs of a generator -/

/-- The states a generator passes through: any calls of `nextBlock` and `generateData`. -/
inductive Reach (g₀ : Generator) : Generator → Prop
  | refl : Reach g₀ g₀
  | next {g g' : Generator} {d : Draw} {b b' : BlockInfo} {r : ModelRef} :
    Reach g₀ g → g.nextBlock d b = .ok (g', r, b') → Reach g₀ g'
  | generate {g g' : Generator} {id c raw : ℕ} {r : ModelRef} {res : ℤ} :
    Reach g₀ g → g.generateData id c raw = .ok (g', r, res) → Reach g₀ g'

/-- **No call changes the frame.** -/
theorem Reach.frame_eq {g₀ g : Generator} (h : Reach g₀ g) : g.frame = g₀.frame := by
  induction h with
  | refl => rfl
  | next _ hn ih => exact (nextBlock_frame hn).trans ih
  | generate _ hg ih => exact (generateData_frame hg).trans ih

end Generator

end Dedisbench
