import Dedisbench.Bench.Checker

/-!
# No false integrity error

The invariant of a run (`RunInv`): every block of every file holds the content that its tracker entry
describes (`Stored`), and every generator is the loaded one up to the stamps on its models.  Population sets
it up (`populate_runInv`), every write of every process keeps it (`processWrite_runInv`), and it leaves the
integrity checker nothing to find as long as the block built again is the one written, which is so when the
line without copies comes first (`Loaded.drawn_of_tracks`).
-/

namespace Dedisbench

open ByteMem ExceptRun

variable {g₀ g g' : Generator} {info : DuplicatesInfo} {conf : Conf} {s s' : Sys} {e : BlockInfo} {i k p : ℕ}
  {content : List UInt8}

/-! ### Blocks as they are tracked -/

/-- Block `k` of the file of row `i` holds the content that its tracker entry describes. -/
def Stored (g₀ : Generator) (conf : Conf) (s : Sys) (i k : ℕ) : Prop :=
  ∃ e content, s.shared.contentTracker conf i k = .ok e ∧ Tracks g₀ conf.blockSize e content ∧
    read (s.files (conf.fileOf i)).byte (k * conf.blockSize) conf.blockSize = content ∧
    k * conf.blockSize + conf.blockSize ≤ (s.files (conf.fileOf i)).size

theorem Stored.congr (h : Stored g₀ conf s i k) (hm : s'.shared.contentMap = s.shared.contentMap)
    (hf : s'.files = s.files) : Stored g₀ conf s' i k := by
  obtain ⟨e, content, he, ht, hread, hsize⟩ := h
  refine ⟨e, content, ?_, ht, ?_, ?_⟩
  · rw [Shared.contentTracker, hm]; exact he
  · rw [hf]; exact hread
  · rw [hf]; exact hsize

theorem contentTracker_eq_ok {sh : Shared} :
    sh.contentTracker conf i k = .ok e ↔ sh.contentMap[i * conf.totblocks + k]? = some e := by
  unfold Shared.contentTracker
  split <;> simp_all

/-- Rows of the content map do not overlap. -/
theorem row_injective {n i i' k k' : ℕ} (hk : k < n) (hk' : k' < n) (h : i * n + k = i' * n + k') :
    i = i' ∧ k = k' := by
  have hn : 0 < n := by omega
  have hi : i = i' := by
    have h1 : (i * n + k) / n = i := by
      rw [Nat.add_comm, Nat.add_mul_div_right _ _ hn, Nat.div_eq_of_lt hk, Nat.zero_add]
    have h2 : (i' * n + k') / n = i' := by
      rw [Nat.add_comm, Nat.add_mul_div_right _ _ hn, Nat.div_eq_of_lt hk', Nat.zero_add]
    rw [← h1, h, h2]
  subst hi
  exact ⟨rfl, by omega⟩

theorem Conf.fileOf_pos (conf : Conf) (p : ℕ) : conf.fileOf (conf.pos p) = conf.fileOf p := by
  unfold Conf.fileOf Conf.pos
  split <;> simp_all

theorem Conf.pos_of_lt (h : i < conf.trackerRows) : conf.pos i = i := by
  unfold Conf.trackerRows at h
  unfold Conf.pos
  split
  next hraw =>
    rw [if_pos hraw] at h
    omega
  next => rfl

theorem Conf.pos_lt (h : p < conf.writers) : conf.pos p < conf.trackerRows := by
  unfold Conf.pos Conf.trackerRows
  split
  · exact Nat.one_pos
  · exact h

theorem Conf.writers_le (conf : Conf) : conf.writers ≤ conf.nprocs := by
  unfold Conf.writers
  split
  · exact Nat.div_le_self _ _
  · exact le_rfl

theorem Conf.fileOf_ne (hi : i < conf.trackerRows) (hne : i ≠ conf.pos p) : conf.fileOf i ≠ conf.fileOf p := by
  unfold Conf.trackerRows at hi
  unfold Conf.pos at hne
  unfold Conf.fileOf
  by_cases hraw : conf.rawdevice = true
  · rw [if_pos hraw] at hi hne
    omega
  · rw [if_neg hraw] at hne ⊢
    rw [if_neg hraw]
    intro h
    exact hne (FileId.pfile.inj h)

/-! ### Storing a block -/

theorem Sys.store_eq_ok {off : ℕ} (hint : conf.integrity ≠ 0) (h : s.store conf p off content e = .ok s') :
    conf.pos p * conf.totblocks + off / conf.blockSize < s.shared.contentMap.length ∧
    s' = { s with
      files := Function.update s.files (conf.fileOf p) ((s.files (conf.fileOf p)).pwrite content off)
      shared := { s.shared with
        contentMap := s.shared.contentMap.set (conf.pos p * conf.totblocks + off / conf.blockSize) e } } := by
  rw [Sys.store, bind_eq_ok] at h
  obtain ⟨sh, hsh, h⟩ := h
  unfold Shared.track at hsh
  rw [if_neg hint] at hsh
  split at hsh
  next hlt =>
    cases hsh
    cases h
    exact ⟨hlt, rfl⟩
  next => cases hsh

theorem Tracks.length {bs : ℕ} (h : Tracks g₀ bs e content) : content.length = bs := by
  obtain ⟨g, g', d, b, r, b', -, -, -, hc⟩ := h
  rw [Generator.contentAt, bind_eq_ok] at hc
  obtain ⟨m, -, hm⟩ := hc
  rw [← (Buffer.bytes_eq_ok.mp hm).2, length_read]

theorem read_ofList (l : List UInt8) : read (ofList l) 0 l.length = l := by
  refine List.ext_getElem? fun i => ?_
  by_cases hi : i < l.length
  · rw [getElem?_read hi, Nat.zero_add, ofList, List.getElem?_eq_getElem hi]
    simp [List.getD_eq_getElem?_getD, hi]
  · rw [List.getElem?_eq_none (by simpa using hi), List.getElem?_eq_none (by omega)]

/-- A block that was written is read back. -/
theorem File.read_pwrite_self {bs : ℕ} {f : File} (hlen : content.length = bs) :
    read (f.pwrite content (k * bs)).byte (k * bs) bs = content ∧ k * bs + bs ≤ (f.pwrite content (k * bs)).size := by
  subst hlen
  constructor
  · simp only [File.pwrite]
    rw [read_write_self]
    exact read_ofList content
  · exact le_max_right _ _

/-- The other blocks of the file are as they were. -/
theorem File.read_pwrite_other {bs k' : ℕ} {f : File} (hlen : content.length = bs) (hne : k ≠ k') :
    read (f.pwrite content (k * bs)).byte (k' * bs) bs = read f.byte (k' * bs) bs ∧
      f.size ≤ (f.pwrite content (k * bs)).size := by
  subst hlen
  constructor
  · simp only [File.pwrite]
    exact read_write_disjoint _ _ (blocks_disjoint hne)
  · exact le_max_left _ _

/-- The block that is stored is as tracked. -/
theorem Sys.store_self (hint : conf.integrity ≠ 0) (ht : Tracks g₀ conf.blockSize e content)
    (h : s.store conf p (k * conf.blockSize) content e = .ok s') : Stored g₀ conf s' (conf.pos p) k := by
  obtain ⟨hlt, rfl⟩ := Sys.store_eq_ok hint h
  rw [Nat.mul_div_cancel _ conf.blockSize_pos] at hlt
  refine ⟨e, content, ?_, ht, ?_⟩
  · rw [contentTracker_eq_ok, Nat.mul_div_cancel _ conf.blockSize_pos]
    exact List.getElem?_set_self hlt
  · simp only [conf.fileOf_pos, Function.update_self]
    exact File.read_pwrite_self ht.length

/-- The other blocks are as they were. -/
theorem Sys.store_other {k' : ℕ} (hint : conf.integrity ≠ 0) (ht : Tracks g₀ conf.blockSize e content)
    (hi : i < conf.trackerRows) (hk : k < conf.totblocks) (hk' : k' < conf.totblocks)
    (hne : ¬ (i = conf.pos p ∧ k' = k)) (hs : Stored g₀ conf s i k')
    (h : s.store conf p (k * conf.blockSize) content e = .ok s') : Stored g₀ conf s' i k' := by
  obtain ⟨hlt, rfl⟩ := Sys.store_eq_ok hint h
  obtain ⟨e', content', he', ht', hread, hsize⟩ := hs
  refine ⟨e', content', ?_, ht', ?_⟩
  · rw [contentTracker_eq_ok, Nat.mul_div_cancel _ conf.blockSize_pos]
    rw [contentTracker_eq_ok] at he'
    rw [List.getElem?_set_ne, he']
    intro heq
    obtain ⟨hii, hkk⟩ := row_injective hk hk' heq
    exact hne ⟨hii.symm, hkk.symm⟩
  by_cases hrow : i = conf.pos p
  · -- another block of the same file
    have hkk : k ≠ k' := fun hkk => hne ⟨hrow, hkk.symm⟩
    rw [hrow, conf.fileOf_pos] at hread hsize
    simp only [hrow, conf.fileOf_pos, Function.update_self]
    obtain ⟨hsame, hle⟩ := File.read_pwrite_other ht.length hkk
    exact ⟨hsame.trans hread, le_trans hsize hle⟩
  · simp only [Function.update_of_ne (conf.fileOf_ne hi hrow)]
    exact ⟨hread, hsize⟩

/-- **A store keeps every block as tracked.** -/
theorem Sys.store_stored {k' : ℕ} (hint : conf.integrity ≠ 0) (ht : Tracks g₀ conf.blockSize e content)
    (hi : i < conf.trackerRows) (hk : k < conf.totblocks) (hk' : k' < conf.totblocks)
    (hs : Stored g₀ conf s i k') (h : s.store conf p (k * conf.blockSize) content e = .ok s') :
    Stored g₀ conf s' i k' := by
  by_cases hsame : i = conf.pos p ∧ k' = k
  · obtain ⟨rfl, rfl⟩ := hsame
    exact Sys.store_self hint ht h
  · exact Sys.store_other hint ht hi hk hk' hsame hs h

/-! ### What is written -/

theorem getWritecontent_tracks {r : ModelRef} {d : Generator.Draw} {bs : ℕ} (hr : Generator.Reach g₀ g)
    (h : getWritecontent g p d = .ok (g', r, e)) (hc : g'.contentAt r bs = .ok content) :
    Generator.Reach g₀ g' ∧ Tracks g₀ bs e content := by
  rw [getWritecontent, bind_eq_ok] at h
  obtain ⟨⟨g₁, r₁, b'⟩, hn, h⟩ := h
  cases h
  exact ⟨.next hr hn, g, g', d, _, r, b', hr, hn, rfl, hc⟩

theorem Shared.count_contentMap {sh sh' : Shared} {j n : ℕ} (h : sh.count j = .ok (sh', n)) :
    sh'.contentMap = sh.contentMap := by
  unfold Shared.count at h
  split at h
  · cases h; rfl
  · cases h

theorem populateCount_contentMap {sh sh' : Shared} (h : populateCount conf info sh e = .ok sh') :
    sh'.contentMap = sh.contentMap := by
  unfold populateCount at h
  split at h
  · simp only [bind_eq_ok] at h
    obtain ⟨⟨sh₁, n⟩, hcount, h⟩ := h
    cases h
    exact Shared.count_contentMap hcount
  · cases h; rfl

theorem processCount_frame {sh sh' : Shared} {q q' : Proc} (h : processCount conf info q sh e = .ok (q', sh')) :
    sh'.contentMap = sh.contentMap ∧ q'.gen = q.gen := by
  unfold processCount at h
  simp only at h
  split at h
  · cases h; exact ⟨rfl, rfl⟩
  split at h
  · split at h
    · cases h
    · simp only [bind_eq_ok] at h
      obtain ⟨⟨sh₁, n⟩, hcount, h⟩ := h
      split at h <;>
      · cases h
        exact ⟨Shared.count_contentMap hcount, rfl⟩
  · simp only [bind_eq_ok] at h
    obtain ⟨⟨sh₁, n⟩, hcount, h⟩ := h
    cases h
    exact ⟨Shared.count_contentMap hcount, rfl⟩

/-! ### Population -/

section Populate

variable {draws : ℕ → Generator.Draw}

/-- What one round of `realPopulate` does. -/
theorem populateBlock_store (hr : Generator.Reach g₀ s.gen) (h : populateBlock conf info p draws s k = .ok s') :
    ∃ (s₁ : Sys) (e : BlockInfo) (content : List UInt8), s₁.files = s.files ∧
      s₁.shared.contentMap = s.shared.contentMap ∧ s₁.procs = s.procs ∧
      Generator.Reach g₀ s₁.gen ∧ Tracks g₀ conf.blockSize e content ∧
      s₁.store conf p (k * conf.blockSize) content e = .ok s' := by
  rw [populateBlock, bind_eq_ok] at h
  obtain ⟨⟨gen, buf, e⟩, hw, h⟩ := h
  simp only [bind_eq_ok] at h
  obtain ⟨shared, hshared, content, hc, h⟩ := h
  obtain ⟨hr', ht⟩ := getWritecontent_tracks hr hw hc
  exact ⟨{ s with gen, shared }, e, content, rfl, populateCount_contentMap hshared, rfl, hr', ht, h⟩

theorem Sys.store_gen {off : ℕ} (h : s.store conf p off content e = .ok s') :
    s'.gen = s.gen ∧ s'.procs = s.procs := by
  rw [Sys.store, bind_eq_ok] at h
  obtain ⟨sh, -, h⟩ := h
  cases h
  exact ⟨rfl, rfl⟩

theorem populateBlock_reach (hr : Generator.Reach g₀ s.gen) (h : populateBlock conf info p draws s k = .ok s') :
    Generator.Reach g₀ s'.gen := by
  obtain ⟨s₁, e, content, -, -, -, hr₁, -, hstore⟩ := populateBlock_store hr h
  rw [(Sys.store_gen hstore).1]
  exact hr₁

theorem populateBlock_self (hint : conf.integrity ≠ 0) (hr : Generator.Reach g₀ s.gen)
    (h : populateBlock conf info p draws s k = .ok s') : Stored g₀ conf s' (conf.pos p) k := by
  obtain ⟨s₁, e, content, -, -, -, -, ht, hstore⟩ := populateBlock_store hr h
  exact Sys.store_self hint ht hstore

theorem populateBlock_stored {k' : ℕ} (hint : conf.integrity ≠ 0) (hi : i < conf.trackerRows)
    (hk : k < conf.totblocks) (hk' : k' < conf.totblocks) (hr : Generator.Reach g₀ s.gen)
    (hs : Stored g₀ conf s i k') (h : populateBlock conf info p draws s k = .ok s') : Stored g₀ conf s' i k' := by
  obtain ⟨s₁, e, content, hfiles, hmap, -, -, ht, hstore⟩ := populateBlock_store hr h
  exact Sys.store_stored hint ht hi hk hk' (hs.congr hmap hfiles) hstore

theorem realPopulate_reach (hr : Generator.Reach g₀ s.gen) (h : realPopulate conf info p draws s = .ok s') :
    Generator.Reach g₀ s'.gen :=
  foldlM_inv (P := fun s => Generator.Reach g₀ s.gen) (fun _ _ _ _ hr h => populateBlock_reach hr h) hr h

variable (hint : conf.integrity ≠ 0) (hdvd : conf.blockSize ∣ conf.filesize)
include hint hdvd

theorem realPopulate_self (hr : Generator.Reach g₀ s.gen) (hp : conf.pos p < conf.trackerRows)
    (h : realPopulate conf info p draws s = .ok s') : ∀ k < conf.totblocks, Stored g₀ conf s' (conf.pos p) k := by
  intro k hk
  rw [realPopulate, conf.rounds_eq hdvd] at h
  refine foldlM_establishes (P := fun s => Generator.Reach g₀ s.gen)
    (Q := fun k s => Stored g₀ conf s (conf.pos p) k) ?_ ?_ ?_ hr h k (List.mem_range.mpr hk)
  · intro s k s' _ hr h
    exact populateBlock_reach hr h
  · intro s k s' _ hr h
    exact populateBlock_self hint hr h
  · intro s k s' k' hk hk' hr hs h
    exact populateBlock_stored hint hp (List.mem_range.mp hk) (List.mem_range.mp hk') hr hs h

theorem realPopulate_stored (hr : Generator.Reach g₀ s.gen) (hi : i < conf.trackerRows) (hk : k < conf.totblocks)
    (hs : Stored g₀ conf s i k) (h : realPopulate conf info p draws s = .ok s') : Stored g₀ conf s' i k := by
  rw [realPopulate, conf.rounds_eq hdvd] at h
  refine (foldlM_inv (P := fun s => Generator.Reach g₀ s.gen ∧ Stored g₀ conf s i k) ?_ ⟨hr, hs⟩ h).2
  intro s k' s' hk' hP h
  exact ⟨populateBlock_reach hP.1 h,
    populateBlock_stored hint hi (List.mem_range.mp hk') hk hP.1 hP.2 h⟩

/-- **Population leaves every block as tracked.** -/
theorem populate_stored {draws : ℕ → ℕ → Generator.Draw} (hr : Generator.Reach g₀ s.gen)
    (h : populate conf info draws s = .ok s') :
    Generator.Reach g₀ s'.gen ∧ ∀ i < conf.trackerRows, ∀ k < conf.totblocks, Stored g₀ conf s' i k := by
  constructor
  · exact foldlM_inv (P := fun s => Generator.Reach g₀ s.gen)
      (fun _ _ _ _ hr h => realPopulate_reach hr h) hr h
  intro i hi
  refine foldlM_establishes (P := fun s => Generator.Reach g₀ s.gen)
    (Q := fun i s => ∀ k < conf.totblocks, Stored g₀ conf s i k) ?_ ?_ ?_ hr h i (List.mem_range.mpr hi)
  · intro s i s' _ hr h
    exact realPopulate_reach hr h
  · intro s i s' hi hr h
    have hpos := Conf.pos_of_lt (List.mem_range.mp hi)
    have hself := realPopulate_self hint hdvd hr (by rw [hpos]; exact List.mem_range.mp hi) h
    rwa [hpos] at hself
  · intro s i' s' i _ hi hr hs h k hk
    exact realPopulate_stored hint hdvd hr (List.mem_range.mp hi) hk (hs k hk) h

end Populate

/-! ### The invariant of a run -/

/-- The invariant of a run: the generators are the loaded one up to stamps, and every block is as tracked. -/
structure RunInv (g₀ : Generator) (conf : Conf) (s : Sys) : Prop where
  parent : Generator.Reach g₀ s.gen
  procs : ∀ p, Generator.Reach g₀ (s.procs p).gen
  stored : ∀ i < conf.trackerRows, ∀ k < conf.totblocks, Stored g₀ conf s i k

theorem launch_eq_ok {raws : ℕ → List ℕ} (h : launch conf raws s = .ok s') :
    s'.files = s.files ∧ s'.shared = s.shared ∧ s'.gen = s.gen ∧ ∀ p, (s'.procs p).gen = s.gen := by
  rw [launch, bind_eq_ok] at h
  obtain ⟨cs, -, h⟩ := h
  cases h
  exact ⟨rfl, rfl, rfl, fun _ => rfl⟩

theorem populate_runInv {draws : ℕ → ℕ → Generator.Draw} {raws : ℕ → List ℕ} {s₁ : Sys}
    (hint : conf.integrity ≠ 0) (hdvd : conf.blockSize ∣ conf.filesize) (hr : Generator.Reach g₀ s.gen)
    (hp : populate conf info draws s = .ok s₁) (hl : launch conf raws s₁ = .ok s') : RunInv g₀ conf s' := by
  obtain ⟨hr₁, hstored⟩ := populate_stored hint hdvd hr hp
  obtain ⟨hfiles, hshared, hgen, hprocs⟩ := launch_eq_ok hl
  refine ⟨by rw [hgen]; exact hr₁, fun p => by rw [hprocs]; exact hr₁, ?_⟩
  intro i hi k hk
  exact (hstored i hi k hk).congr (by rw [hshared]) hfiles

/-- What a write does. -/
theorem processWrite_eq_ok {w : WriteStep} (h : processWrite conf info s w = .ok s') :
    ∃ (gen : Generator) (buf : ModelRef) (e : BlockInfo) (off : ℕ) (content : List UInt8) (s₁ s₂ : Sys) (q : Proc),
      getWritecontent (s.procs w.idproc).gen w.idproc w.draw = .ok (gen, buf, e) ∧
      (∃ c o raws, getIoposition conf o c w.idproc w.raws = .ok (off, raws)) ∧
      gen.contentAt buf conf.blockSize = .ok content ∧
      s₁.files = s.files ∧
      s₁.shared.contentMap = s.shared.contentMap ∧ s₁.procs = s.procs ∧ s₁.gen = s.gen ∧
      s₁.store conf w.idproc off content e = .ok s₂ ∧ q.gen = gen ∧
      s' = { s₂ with procs := Function.update s₂.procs w.idproc q } := by
  unfold processWrite at h
  simp only [bind_eq_ok] at h
  obtain ⟨⟨gen, buf, e⟩, hw, ⟨off, rest⟩, hoff, ⟨q, shared⟩, hcount, accesses, -, content, hc, s₂, hstore, h⟩ := h
  cases h
  obtain ⟨hmap, hgen⟩ := processCount_frame hcount
  exact ⟨gen, buf, e, off, content, { s with shared }, s₂,
    { q with acessesarray := accesses, totOps := if w.measured then u64 (q.totOps + 1) else q.totOps },
    hw, ⟨_, _, _, hoff⟩, hc, rfl, hmap, rfl, rfl, hstore, hgen, rfl⟩

theorem processWrite_reach {w : WriteStep} (hr : ∀ p, Generator.Reach g₀ (s.procs p).gen)
    (h : processWrite conf info s w = .ok s') (p : ℕ) : Generator.Reach g₀ (s'.procs p).gen := by
  obtain ⟨gen, buf, e, off, content, s₁, s₂, q, hwrite, -, hc, -, -, hprocs, -, hstore, hq, rfl⟩ :=
    processWrite_eq_ok h
  show Generator.Reach g₀ (Function.update s₂.procs w.idproc q p).gen
  by_cases hp : p = w.idproc
  · rw [hp, Function.update_self, hq]
    exact (getWritecontent_tracks (hr w.idproc) hwrite hc).1
  · rw [Function.update_of_ne hp, (Sys.store_gen hstore).2, hprocs]
    exact hr p

/-- **Every write keeps the invariant.** -/
theorem processWrite_runInv {w : WriteStep} (hint : conf.integrity ≠ 0) (hw : w.idproc < conf.writers)
    (hs : RunInv g₀ conf s) (h : processWrite conf info s w = .ok s') : RunInv g₀ conf s' := by
  have hreach := processWrite_reach hs.procs h
  obtain ⟨gen, buf, e, off, content, s₁, s₂, q, hwrite, ⟨c, o, raws, hoff⟩, hc, hfiles, hmap, -, hgen, hstore, -,
    rfl⟩ := processWrite_eq_ok h
  obtain ⟨k, hk, rfl⟩ := getIoposition_block (lt_of_lt_of_le hw conf.writers_le) hoff
  obtain ⟨-, ht⟩ := getWritecontent_tracks (hs.procs w.idproc) hwrite hc
  refine ⟨?_, hreach, ?_⟩
  · show Generator.Reach g₀ s₂.gen
    rw [(Sys.store_gen hstore).1, hgen]
    exact hs.parent
  · intro i hi k' hk'
    have hst : Stored g₀ conf s₂ i k' :=
      Sys.store_stored hint ht hi hk hk' ((hs.stored i hi k' hk').congr hmap hfiles) hstore
    exact hst.congr rfl rfl

theorem processRun_runInv {steps : List WriteStep} (hint : conf.integrity ≠ 0)
    (hw : ∀ w ∈ steps, w.idproc < conf.writers) (hs : RunInv g₀ conf s)
    (h : processRun conf info steps s = .ok s') : RunInv g₀ conf s' :=
  foldlM_inv (P := RunInv g₀ conf) (fun _ w _ hmem hs h => processWrite_runInv hint (hw w hmem) hs h) hs h

/-! ### Building a tracked block again -/

/-- The only line without copies is the first one. -/
def ZeroLineFirst (g : Generator) : Prop :=
  ∀ (i : ℕ) (l : Linha Float), g.linhas[i]? = some l → (l.nrCopies = 0 ↔ i = 0)

theorem ZeroLineFirst.firstZeroBlocks (h : ZeroLineFirst g) {l : Linha Float} (hl : g.linhas[0]? = some l) :
    firstZeroBlocks g.linhas = l.nrBlocks := by
  have hc : l.nrCopies = 0 := (h 0 l hl).mpr rfl
  cases hlin : g.linhas with
  | nil => rw [hlin] at hl; cases hl
  | cons l₀ ls =>
    rw [hlin] at hl
    cases hl
    simp [Dedisbench.firstZeroBlocks, hc]

/-- An id of a line with copies lies beyond the line without. -/
theorem Loaded.firstZeroBlocks_lt (hg : Loaded g info) (hfirst : ZeroLineFirst g)
    (hsum : g.blockCounts.sum < 2 ^ 32) {l : Linha Float} {id : ℕ} (hi : g.linhas[i]? = some l)
    (hc : l.nrCopies ≠ 0) (hid : id ∈ l.ids) : firstZeroBlocks g.linhas < id := by
  have hi0 : 0 < i := Nat.pos_of_ne_zero fun h => hc ((hfirst i l hi).mpr h)
  obtain ⟨l₀, hl₀⟩ : ∃ l₀, g.linhas[0]? = some l₀ := by
    have hlt := (List.getElem?_eq_some_iff.mp hi).1
    exact ⟨_, List.getElem?_eq_getElem (by omega)⟩
  have hn₀ : (g.linhas.map Linha.nrBlocks)[0]? = some l₀.nrBlocks := by rw [List.getElem?_map, hl₀]; rfl
  have hle := Spans.span_le_start hn₀ hi0
  rw [Spans.start_zero, Nat.zero_add, ← hg.lines.base_eq hsum hi] at hle
  rw [hfirst.firstZeroBlocks hl₀]
  exact lt_of_le_of_lt hle hid.1

/-- **A block with copies comes out as tracked** whenever it is built again. -/
theorem Loaded.drawn_of_tracks (hg : Loaded g₀ info) (hfirst : ZeroLineFirst g₀)
    (hsum : g₀.blockCounts.sum < 2 ^ 32) {bs raw : ℕ} (ht : Tracks g₀ bs e content)
    (hflag : e.flagUniqueBlock ≠ 1) : g₀.drawn e.blockId raw = e.contId := by
  obtain ⟨g, g', d, b, r, b', hr, hn, he, -⟩ := ht
  obtain ⟨i, l, pos, hi, h1, hpos, hid, -, hfl⟩ := hg.nextBlock_line hsum hr hn
  have hc : l.nrCopies ≠ 0 := by
    intro hc
    rw [if_pos hc] at hfl
    rw [he] at hflag
    exact hflag hfl
  have hlt : firstZeroBlocks g₀.linhas < b'.blockId :=
    hg.firstZeroBlocks_lt hfirst hsum hi hc ⟨by omega, by omega⟩
  have hcont := (Generator.nextBlock_content hn).1
  rw [Generator.drawContent_of_frame hr.frame_eq, Generator.drawContent_of_ge hlt.le] at hcont
  rw [he, Generator.drawn]
  show (if b'.blockId < _ then _ else b'.blockId) = b'.contId
  rw [if_neg (by omega)]
  exact Except.ok.inj hcont

theorem Tracks.blockSize_le (hg : Loaded g₀ info) {bs : ℕ} (ht : Tracks g₀ bs e content) : bs ≤ g₀.blockSize := by
  obtain ⟨g, g', d, b, r, b', hr, hn, -, hc⟩ := ht
  have hf : g'.frame = g₀.frame := (Generator.nextBlock_frame hn).trans hr.frame_eq
  rw [Generator.contentAt, bind_eq_ok] at hc
  obtain ⟨m, hm, hbytes⟩ := hc
  have hsize := (hg.of_frame hf).size_modelAt hm
  rw [Generator.blockSize_of_frame hf] at hsize
  have hle := (Buffer.bytes_eq_ok.mp hbytes).1
  rw [hsize] at hle
  exact le_trans hle (Nat.div_mul_le_self _ _)

/-- The block that `onlineCheck` expects is the tracked one. -/
theorem Loaded.rebuilt_of_tracks (hg : Loaded g₀ info) (hfirst : ZeroLineFirst g₀)
    (hsum : g₀.blockCounts.sum < 2 ^ 32) (hf : g.frame = g₀.frame) (ht : Tracks g₀ g₀.blockSize e content)
    (raw : ℕ) : g.rebuiltContent e raw = .ok content := by
  obtain ⟨-, -, -, hof⟩ := hg.of_tracks ht
  rw [Generator.rebuiltContent, Generator.contentOf_of_frame hf, Generator.drawn_of_frame hf,
    Generator.blockSize_of_frame hf]
  by_cases hflag : e.flagUniqueBlock = 1
  · rw [if_pos hflag]
    exact hof
  · rw [if_neg hflag, hg.drawn_of_tracks hfirst hsum ht hflag]
    exact hof

/-! ### The static check -/

section StaticCheck

variable {draws : ℕ → CheckDraw}

theorem Stored.blockSize_eq (hg : Loaded g₀ info) (hbs : g₀.blockSize ≤ conf.blockSize)
    (hs : Stored g₀ conf s i k) : conf.blockSize = g₀.blockSize := by
  obtain ⟨e, content, -, ht, -⟩ := hs
  exact le_antisymm (ht.blockSize_le hg) hbs

variable (hg : Loaded g₀ info) (hbs : g₀.blockSize ≤ conf.blockSize) (hfirst : ZeroLineFirst g₀)
  (hsum : g₀.blockCounts.sum < 2 ^ 32)
include hg hbs hfirst hsum

/-- A block that is as its entry says is found without errors, unless the content id drawn for it stands for
an error. -/
theorem Loaded.onlineCheck_of_tracks {z : Bool} {d : CheckDraw} {buf : Buffer}
    (ht : Tracks g₀ conf.blockSize e content) (hf : g.frame = g₀.frame)
    (hbytes : buf.bytes conf.blockSize = .ok content) (hd : g.drawn e.blockId d.expected ≠ uintMax) :
    ∃ g', onlineCheck g buf e conf.blockSize z info d = .ok (g', 0, []) := by
  have hbs' : conf.blockSize = g₀.blockSize := le_antisymm (ht.blockSize_le hg) hbs
  have hgbs := Generator.blockSize_of_frame hf
  rw [hbs'] at ht
  have hof := hg.rebuilt_of_tracks hfirst hsum hf ht d.expected
  rw [hbs', ← hgbs] at hbytes ⊢
  exact (hg.of_frame hf).onlineCheck_of_eq (hg.of_tracks ht).2.2.1 hd hof hbytes rfl

/-- **A stored block is found without errors**, unless the content id drawn for it stands for an error. -/
theorem Stored.onlineCheck_eq {z : Bool} {d : CheckDraw} {buf : Buffer} (hs : Stored g₀ conf s i k)
    (hf : g.frame = g₀.frame) (he : s.shared.contentTracker conf i k = .ok e)
    (hbytes : buf.bytes conf.blockSize =
      .ok (read (s.files (conf.fileOf i)).byte (k * conf.blockSize) conf.blockSize))
    (hd : g.drawn e.blockId d.expected ≠ uintMax) :
    ∃ g', onlineCheck g buf e conf.blockSize z info d = .ok (g', 0, []) := by
  obtain ⟨e', content, he', ht, rfl, -⟩ := hs
  cases he.symm.trans he'
  exact hg.onlineCheck_of_tracks hbs hfirst hsum ht hf hbytes hd

theorem Stored.checkBlock_clean {c c' : CheckState} (hs : Stored g₀ conf s i k) (hc : c.gen.frame = g₀.frame)
    (hbuf : c.buf.size = conf.blockSize)
    (h : checkBlock conf info s.shared (s.files (conf.fileOf i)) i draws c k = .ok c') :
    c'.gen.frame = g₀.frame ∧ c'.buf.size = conf.blockSize ∧ c'.res = c.res ∧ c'.report = c.report := by
  have hbs' := hs.blockSize_eq hg hbs
  obtain ⟨e, content, he, ht, hread, hsize⟩ := id hs
  obtain ⟨buf', hpread, hsize', hbytes, -⟩ := File.pread_block hbuf hsize
  have hpos := conf.blockSize_pos
  unfold checkBlock at h
  simp only [hpread] at h
  rw [if_neg (by omega)] at h
  simp only [he, bind_ok, bind_eq_ok] at h
  obtain ⟨⟨gen, v, entries⟩, hcheck, res, hres, h⟩ := h
  cases h
  have hd := (hg.of_frame hc).drawn_of_onlineCheck (hg.of_tracks (hbs' ▸ ht)).2.2.1 hcheck
  obtain ⟨g', hcheck'⟩ := hs.onlineCheck_eq hg hbs hfirst hsum (z := true) hc he hbytes hd
  cases hcheck.symm.trans hcheck'
  have hres' : res = c.res := by
    obtain ⟨-, rfl⟩ := cInt_eq_ok.mp hres
    exact add_zero _
  exact ⟨(onlineCheck_frame hcheck).trans hc, hsize', hres', List.append_nil _⟩

variable (hdvd : conf.blockSize ∣ conf.filesize)
include hdvd

theorem RunInv.fileIntegrity_clean {fresh : Mem} {c : CheckState} (hs : RunInv g₀ conf s)
    (hi : i < conf.trackerRows) (hf : g.frame = g₀.frame)
    (h : fileIntegrity conf info s.shared (s.files (conf.fileOf i)) i draws fresh g = .ok c) :
    c.gen.frame = g₀.frame ∧ c.res = 0 ∧ c.report = [] := by
  rw [fileIntegrity, conf.rounds_eq hdvd] at h
  have hinv := foldlM_inv (P := fun c : CheckState => c.gen.frame = g₀.frame ∧ c.buf.size = conf.blockSize ∧
    c.res = 0 ∧ c.report = []) ?_ ⟨hf, rfl, rfl, rfl⟩ h
  · exact ⟨hinv.1, hinv.2.2⟩
  · intro c k c' hk hc h
    obtain ⟨hframe, hbuf, hres, hreport⟩ := hc
    obtain ⟨hframe', hbuf', hres', hreport'⟩ :=
      (hs.stored i hi k (List.mem_range.mp hk)).checkBlock_clean hg hbs hfirst hsum hframe hbuf h
    exact ⟨hframe', hbuf', hres'.trans hres, hreport'.trans hreport⟩

theorem RunInv.staticCheck_clean {draws : ℕ → ℕ → CheckDraw} {fresh : ℕ → Mem} {errors : ℤ}
    {report : List ReportEntry} (hs : RunInv g₀ conf s)
    (h : staticCheck conf info draws fresh s = .ok (g', errors, report)) : errors = 0 ∧ report = [] := by
  have hinv := foldlM_inv (P := fun x : Generator × ℤ × List ReportEntry =>
    x.1.frame = g₀.frame ∧ x.2.1 = 0 ∧ x.2.2 = []) ?_ ⟨hs.parent.frame_eq, rfl, rfl⟩ h
  · exact hinv.2
  · rintro ⟨g, errors, report⟩ i x hi ⟨hframe, herrors, hreport⟩ h
    simp only [bind_eq_ok] at h
    obtain ⟨c, hc, errors', herrors', h⟩ := h
    cases h
    obtain ⟨hframe', hres, hreport'⟩ :=
      hs.fileIntegrity_clean hg hbs hfirst hsum hdvd (List.mem_range.mp hi) hframe hc
    simp only at herrors hreport
    rw [herrors, hres] at herrors'
    cases herrors'
    refine ⟨hframe', rfl, ?_⟩
    simp [hreport, hreport']

/-- The static check of a run comes back, unless it draws a content id that stands for an error. -/
theorem RunInv.staticCheck_ok {draws : ℕ → ℕ → CheckDraw} {fresh : ℕ → Mem} (hs : RunInv g₀ conf s)
    (hd : ∀ i k e, s.shared.contentTracker conf i k = .ok e → g₀.drawn e.blockId (draws i k).expected ≠ uintMax) :
    ∃ x, staticCheck conf info draws fresh s = .ok x := by
  have hloop := foldlM_ok (l := conf.populated) (f := fun (x : Generator × ℤ × List ReportEntry) i => do
      let c ← fileIntegrity conf info s.shared (s.files (conf.fileOf i)) i (draws i) (fresh i) x.1
      let errors ← cInt (x.2.1 + c.res)
      (.ok (c.gen, errors, x.2.2 ++ c.report) : Exec _))
    (P := fun x => x.1.frame = g₀.frame ∧ x.2.1 = 0) ?_ (s := (s.gen, 0, [])) ⟨hs.parent.frame_eq, rfl⟩
  · obtain ⟨x, hx, -⟩ := hloop
    exact ⟨x, hx⟩
  · rintro ⟨g, errors, report⟩ i hi ⟨hframe, herrors⟩
    simp only at hframe herrors
    have hi' := List.mem_range.mp hi
    have htot : conf.totblocks * conf.blockSize = conf.filesize := Nat.div_mul_cancel hdvd
    have hsize : conf.filesize ≤ (s.files (conf.fileOf i)).size := by
      rcases Nat.eq_zero_or_pos conf.totblocks with h0 | hpos
      · rw [← htot, h0, Nat.zero_mul]
        exact Nat.zero_le _
      obtain ⟨-, -, -, -, -, hsize⟩ := hs.stored i hi' (conf.totblocks - 1) (by omega)
      calc conf.filesize = (conf.totblocks - 1) * conf.blockSize + conf.blockSize := by
            rw [← htot, ← Nat.succ_mul, Nat.succ_eq_add_one, Nat.sub_add_cancel hpos]
        _ ≤ _ := hsize
    obtain ⟨entry, hentry⟩ : ∃ entry : ℕ → BlockInfo, ∀ k < conf.totblocks,
        s.shared.contentTracker conf i k = .ok (entry k) := by
      refine ⟨fun k => (s.shared.contentMap[i * conf.totblocks + k]?).getD ⟨0, 0, 0, 0, 0⟩, fun k hk => ?_⟩
      obtain ⟨e, -, he, -⟩ := hs.stored i hi' k hk
      rw [contentTracker_eq_ok] at he ⊢
      simp [he]
    obtain ⟨c, hc, hframe', hres⟩ := fileIntegrity_countP (D := draws i) (m := fresh i)
      (B := fun _ => False) (le_trans (le_trans (by decide) hg.blockSize) hbs) hdvd hsize hframe hentry (by
        intro k hk g buf hf hbytes _
        obtain ⟨g', hcheck⟩ := (hs.stored i hi' k hk).onlineCheck_eq hg hbs hfirst hsum (z := true) hf
          (hentry k hk) hbytes (d := draws i k) (by
            rw [Generator.drawn_of_frame hf]
            exact hd i k _ (hentry k hk))
        exact ⟨g', [], by rw [if_neg not_false]; exact hcheck⟩) (by simp)
    have hzero : c.res = 0 := by rw [hres]; simp
    refine ⟨(c.gen, 0, report ++ c.report), ?_, hframe', rfl⟩
    simp only [hc, bind_ok, herrors, hzero]
    rfl

end StaticCheck

/-! ### A whole run -/

/-- The generator that `main` makes, from arguments that are `unsigned int`s. -/
def Conf.generator (conf : Conf) : Generator :=
  .mk' (u32 conf.blockSize) (u32 conf.totblocks) (u32 conf.percentageAnalyze) (u32 conf.compressionToAchieve)

theorem Loaded.getBlockContent_of_stored {r : ModelRef} {raw : ℕ} (hg : Loaded g₀ info)
    (hbs : g₀.blockSize ≤ conf.blockSize) (hfirst : ZeroLineFirst g₀) (hsum : g₀.blockCounts.sum < 2 ^ 32)
    (hs : Stored g₀ conf s i k) (he : s.shared.contentTracker conf i k = .ok e) (hf : g.frame = g₀.frame)
    (h : getBlockContent g e raw = .ok (g', r)) : g'.contentAt r conf.blockSize =
      .ok (read (s.files (conf.fileOf i)).byte (k * conf.blockSize) conf.blockSize) := by
  have hbs' := hs.blockSize_eq hg hbs
  obtain ⟨e', content, he', ht, hread, -⟩ := hs
  cases he.symm.trans he'
  rw [hbs'] at ht
  have hid := (hg.of_tracks ht).2.2.1
  have hd := (((hg.of_frame hf).getBlockContent_ok_iff hid).mp ⟨_, h⟩).2
  obtain ⟨g'', r', h', -, hat⟩ :=
    (hg.of_frame hf).getBlockContent_rebuilt hid hd (hg.rebuilt_of_tracks hfirst hsum hf ht raw)
  cases h.symm.trans h'
  rw [Generator.blockSize_of_frame hf, ← hbs'] at hat
  rw [hat, hread]

/-- **No false integrity error over a whole run.**  Take a distribution whose only line without copies is the
first and whose lines add up to less than `2 ^ 32` blocks.  Populate every file, or the device, and let the
writing processes write in any order, with any draws.  If the static check then comes back, it has found no
error; and for every block, what `getBlockContent` builds from its tracker entry is what is on the disk. -/
theorem no_false_integrity_error {file : Option (List Char)} {ld : LoadDraws} {files : FileId → File}
    {old : ℕ → ℕ} {oldMap : ℕ → BlockInfo} {procs : ℕ → Proc} {pdraws : ℕ → ℕ → Generator.Draw}
    {raws : ℕ → List ℕ} {steps : List WriteStep} {cdraws : ℕ → ℕ → CheckDraw} {fresh : ℕ → Mem}
    {s₁ s₂ s₃ : Sys} {errors : ℤ} {report : List ReportEntry}
    (hload : initializeGenerator conf.generator file ld = .ok (g₀, some info, 1)) (hfirst : ZeroLineFirst g₀)
    (hsum : g₀.blockCounts.sum < 2 ^ 32) (hdvd : conf.blockSize ∣ conf.filesize) (hint : conf.integrity ≠ 0)
    (hpop : populate conf info pdraws ⟨files, loadmmap conf info old oldMap, g₀, procs⟩ = .ok s₁)
    (hlaunch : launch conf raws s₁ = .ok s₂) (hsteps : ∀ w ∈ steps, w.idproc < conf.writers)
    (hrun : processRun conf info steps s₂ = .ok s₃)
    (hcheck : staticCheck conf info cdraws fresh s₃ = .ok (g', errors, report)) :
    errors = 0 ∧ report = [] ∧
      ∀ i < conf.trackerRows, ∀ k < conf.totblocks, ∃ e, s₃.shared.contentTracker conf i k = .ok e ∧
        ∀ g raw g'' r, g.frame = g₀.frame → getBlockContent g e raw = .ok (g'', r) →
          g''.contentAt r conf.blockSize =
            .ok (read (s₃.files (conf.fileOf i)).byte (k * conf.blockSize) conf.blockSize) := by
  obtain ⟨hg, hbs⟩ := loaded_of_initialize hload
  have hle : g₀.blockSize ≤ conf.blockSize := hbs.le.trans (Nat.mod_le _ _)
  have hinv := processRun_runInv hint hsteps (populate_runInv hint hdvd .refl hpop hlaunch) hrun
  obtain ⟨herrors, hreport⟩ := hinv.staticCheck_clean hg hle hfirst hsum hdvd hcheck
  refine ⟨herrors, hreport, fun i hi k hk => ?_⟩
  have hstored := hinv.stored i hi k hk
  obtain ⟨e, -, he, -⟩ := id hstored
  exact ⟨e, he, fun g raw g'' r hf h => hg.getBlockContent_of_stored hle hfirst hsum hstored he hf h⟩

theorem mebibyte_lt : 1048576 < 2 ^ 64 := by decide

/-- Files of 1 MiB. -/
def sampleConf (blockSize nprocs percentageAnalyze : ℕ) (h : 0 < blockSize) : Conf where
  blockSize := blockSize
  filesize := 1048576
  nprocs := nprocs
  mixedIO := false
  rawdevice := false
  accesstype := .sequential
  distout := false
  integrity := 1
  percentageAnalyze := percentageAnalyze
  compressionToAchieve := 25
  blockSize_pos := h
  filesize_lt := mebibyte_lt

/-- Two processes, with files of sixteen blocks. -/
def twoFiles : Conf := sampleConf 65536 2 50 (by decide)

/-- Empty files, memory that is zero and no processes yet. -/
def sampleSys (conf : Conf) (info : DuplicatesInfo) (g : Generator) : Sys :=
  ⟨fun _ => ⟨0, fun _ => 0⟩, loadmmap conf info (fun _ => 0) fun _ => ⟨0, 0, 0, 0, 0⟩, g, fun _ => ⟨g, 0, 0, 0, 0, []⟩⟩

theorem ZeroLineFirst.of_copies {cs : List ℕ} (h : g.linhas.map Linha.nrCopies = 0 :: cs) (hcs : 0 ∉ cs) :
    ZeroLineFirst g := by
  intro i l hi
  have hc : (g.linhas.map Linha.nrCopies)[i]? = some l.nrCopies := by rw [List.getElem?_map, hi]; rfl
  rw [h] at hc
  cases i with
  | zero => simpa using (Option.some.inj hc).symm
  | succ i =>
    rw [List.getElem?_cons_succ] at hc
    constructor
    · intro h0
      exact absurd (h0 ▸ List.mem_of_getElem? hc) hcs
    · intro h0
      omega

theorem plainDistribution_run : ∃ g₀ info s₁ s₂ s₃ g' errors report,
    initializeGenerator twoFiles.generator (some plainDistribution) plainDraws = .ok (g₀, some info, 1) ∧
      populate twoFiles info (fun _ k => ⟨k, k, k⟩) (sampleSys twoFiles info g₀) = .ok s₁ ∧
      launch twoFiles (fun _ => []) s₁ = .ok s₂ ∧
      processRun twoFiles info [⟨1, ⟨0, 3, 9⟩, [], true⟩, ⟨0, ⟨1, 2, 3⟩, [], true⟩] s₂ = .ok s₃ ∧
      staticCheck twoFiles info (fun _ _ => ⟨0, 0⟩) (fun _ _ => 0) s₃ = .ok (g', errors, report) ∧
      errors = 0 := by
  obtain ⟨g₀, info, h, hg⟩ := exists_of_loadsWith (x := initializeGenerator twoFiles.generator
    (some plainDistribution) plainDraws) (T := fun g info => g.blockCounts.sum = 12 ∧
      g.linhas.map Linha.nrCopies = [0, 1] ∧ g.totalUniqueBlocks = 12 ∧
      okWith (populate twoFiles info (fun _ k => ⟨k, k, k⟩) (sampleSys twoFiles info g)) fun s₁ =>
        okWith (launch twoFiles (fun _ => []) s₁) fun s₂ =>
          okWith (processRun twoFiles info [⟨1, ⟨0, 3, 9⟩, [], true⟩, ⟨0, ⟨1, 2, 3⟩, [], true⟩] s₂)
            fun s₃ => s₃.shared.contentMap.all fun e => e.blockId < 1000) (by decide +kernel)
  obtain ⟨hsum, hcopies, htotal, hrun⟩ := of_decide_eq_true hg
  obtain ⟨s₁, hpop, hrun⟩ := exists_of_okWith hrun
  obtain ⟨s₂, hlaunch, hrun⟩ := exists_of_okWith hrun
  obtain ⟨s₃, hrun, hmap⟩ := exists_of_okWith hrun
  have hfirst : ZeroLineFirst g₀ := .of_copies hcopies (by decide)
  have hsteps : ∀ w ∈ ([⟨1, ⟨0, 3, 9⟩, [], true⟩, ⟨0, ⟨1, 2, 3⟩, [], true⟩] : List WriteStep),
      w.idproc < twoFiles.writers := by
    intro w hw
    simp only [List.mem_cons, List.not_mem_nil, or_false] at hw
    rcases hw with rfl | rfl <;> decide
  have hdvd : twoFiles.blockSize ∣ twoFiles.filesize := by decide
  obtain ⟨hl, hbs⟩ := loaded_of_initialize h
  have hinv := processRun_runInv (by decide) hsteps (populate_runInv (by decide) hdvd .refl hpop hlaunch) hrun
  have hdrawn : ∀ i k e, s₃.shared.contentTracker twoFiles i k = .ok e → g₀.drawn e.blockId 0 ≠ uintMax := by
    intro i k e he
    have hmem := List.all_eq_true.mp hmap e (List.mem_of_getElem? (contentTracker_eq_ok.mp he))
    have hlt : e.blockId < 1000 := of_decide_eq_true hmem
    rw [Generator.drawn, htotal, Nat.zero_mod]
    unfold uintMax
    split <;> omega
  obtain ⟨⟨g', errors, report⟩, hcheck⟩ : ∃ x,
      staticCheck twoFiles info (fun _ _ => ⟨0, 0⟩) (fun _ _ => 0) s₃ = .ok x :=
    hinv.staticCheck_ok hl (by rw [hbs]; decide) hfirst (by omega) hdvd hdrawn
  exact ⟨g₀, info, s₁, s₂, s₃, g', errors, report, h, hpop, hlaunch, hrun, hcheck,
    (no_false_integrity_error h hfirst (by omega) hdvd (by decide) hpop hlaunch hsteps hrun hcheck).1⟩

/-- The ids of a block read are the ones it was stamped with. -/
theorem word32_of_contentOf {buf : Buffer} {n c : ℕ} (hn : 8 ≤ n) (hid : e.blockId < 2 ^ 32)
    (hbytes : buf.bytes n = .ok content) (hof : g.contentOf e.blockId c e.contId n = .ok content) :
    word32 buf.byte 4 = e.blockId := by
  obtain ⟨m, hm⟩ := Generator.stamped_of_contentOf hof
  rw [← m.word32_stamp_blockId e.contId hid]
  exact word32_of_read ((Buffer.bytes_eq_ok.mp hbytes).2.trans hm) hn

/-- One process, with a file of one block. -/
def oneBlock : Conf := sampleConf 1048576 1 1 (by decide)

/-- An id that is both in the line without copies and in one with copies makes a false error: the block is
written as one with copies, and built again with another content id. -/
theorem wrapDistribution_run : ∃ g₀ info s₁ s₂ g' report,
    initializeGenerator oneBlock.generator (some wrapDistribution) plainDraws = .ok (g₀, some info, 1) ∧
      ZeroLineFirst g₀ ∧ 4096 ∣ oneBlock.blockSize ∧ oneBlock.blockSize ∣ oneBlock.filesize ∧
      populate oneBlock info (fun _ _ => ⟨2, 0, 5⟩) (sampleSys oneBlock info g₀) = .ok s₁ ∧
      launch oneBlock (fun _ => []) s₁ = .ok s₂ ∧
      staticCheck oneBlock info (fun _ _ => ⟨9, 0⟩) (fun _ _ => 0) s₂ = .ok (g', 1, report) := by
  obtain ⟨g₀, info, h, hg⟩ := exists_of_loadsWith (x := initializeGenerator oneBlock.generator
    (some wrapDistribution) plainDraws) (T := fun g info => g.linhas.map Linha.nrCopies = [0, 1, 2] ∧
      g.totalUniqueBlocks = 1672 ∧ firstZeroBlocks g.linhas = 1000 ∧
      okWith (g.getBlockCompressionById (toInt32 673)) (fun c => c = 0) ∧
      okWith (populate oneBlock info (fun _ _ => ⟨2, 0, 5⟩) (sampleSys oneBlock info g)) fun s₁ =>
        okWith (launch oneBlock (fun _ => []) s₁) fun s₂ => s₂.shared.contentMap = [⟨1677, 0, 673, 1, 0⟩])
    (by decide +kernel)
  obtain ⟨hcopies, htotal, hzero, hlookup, hrun⟩ := of_decide_eq_true hg
  obtain ⟨c, hlookup, hc⟩ := exists_of_okWith hlookup
  obtain ⟨s₁, hpop, hrun⟩ := exists_of_okWith hrun
  obtain ⟨s₂, hlaunch, hmap⟩ := exists_of_okWith hrun
  have hmap : s₂.shared.contentMap = [⟨1677, 0, 673, 1, 0⟩] := of_decide_eq_true hmap
  have hdvd : oneBlock.blockSize ∣ oneBlock.filesize := by decide
  obtain ⟨hl, hbs⟩ := loaded_of_initialize h
  have hbs : oneBlock.blockSize = g₀.blockSize := hbs.symm
  have hinv := populate_runInv (by decide) hdvd .refl hpop hlaunch
  obtain ⟨e, content, he, ht, hread, hsize⟩ := hinv.stored 0 (by decide) 0 (by decide)
  rw [contentTracker_eq_ok, hmap] at he
  have he : (⟨1677, 0, 673, 1, 0⟩ : BlockInfo) = e := Option.some.inj he
  subst he
  rw [hbs] at ht
  obtain ⟨h4, hcont, hid, hof⟩ := hl.of_tracks ht
  -- the block is not the one built again, and its ids are found
  have hverdict : Verdict g₀ oneBlock info (s₂.files (oneBlock.fileOf 0)) ⟨1677, 0, 673, 1, 0⟩ ⟨9, 0⟩ 0 True := by
    intro g buf hf hbytes _
    have hgl := hl.of_frame hf
    have hgbs := Generator.blockSize_of_frame hf
    rw [hread, hbs, ← hgbs] at hbytes
    rw [← Generator.contentOf_of_frame hf, ← hgbs] at hof
    have hdrawn : ∀ raw, g.drawn 673 raw = g₀.totalUniqueBlocks + raw % (uintMax - g₀.totalUniqueBlocks + 1) := by
      intro raw
      rw [Generator.drawn_of_frame hf, Generator.drawn, hzero, if_pos (by decide)]
    have hident : Identifiable g info (word32 buf.byte 4) 0 := by
      rw [word32_of_contentOf (le_trans (by decide) hgl.blockSize) hid hbytes hof]
      obtain ⟨r₀, hr₀⟩ : ∃ r, g.getModelByIdAndCompression 673 0 = .ok r :=
        hgl.getModel_ok (by rw [Generator.total_of_frame hf, htotal]; decide) (by decide)
      refine .inr ⟨⟨0, ?_, r₀, hr₀⟩, by rw [hdrawn, htotal]; decide⟩
      rw [Generator.getBlockCompressionById, Generator.linhas_of_frame hf]
      exact hlookup.trans (by rw [of_decide_eq_true hc]; rfl)
    obtain ⟨g', entries, hcheck⟩ := hgl.onlineCheck_of_drawn_ne (e := ⟨1677, 0, 673, 1, 0⟩) (z := true)
      (d := ⟨9, 0⟩) (hgbs.symm ▸ h4) hid hcont hof hbytes (by decide) (by rw [hdrawn, htotal]; decide)
      (by rw [hdrawn, htotal]; decide) hident
    rw [hgbs, ← hbs] at hcheck
    exact ⟨g', entries, hcheck⟩
  have hentry : ∀ k < oneBlock.totblocks, s₂.shared.contentTracker oneBlock 0 k = .ok ⟨1677, 0, 673, 1, 0⟩ := by
    intro k hk
    have hk0 : k = 0 := Nat.lt_one_iff.mp hk
    rw [hk0, contentTracker_eq_ok, hmap]
    rfl
  obtain ⟨c', hc', -, hres⟩ := fileIntegrity_countP (g := s₂.gen) (D := fun _ => ⟨9, 0⟩) (m := fun _ => 0)
    (B := fun _ => True) (by decide) hdvd hsize hinv.parent.frame_eq hentry
    (fun k hk => by
      have hk0 : k = 0 := Nat.lt_one_iff.mp hk
      rw [hk0]
      exact hverdict) (by decide)
  refine ⟨g₀, info, s₁, s₂, c'.gen, [] ++ c'.report, h, .of_copies hcopies (by decide), by decide, hdvd, hpop,
    hlaunch, ?_⟩
  have hone : c'.res = 1 := hres.trans (by decide)
  rw [staticCheck, show oneBlock.populated = [0] from rfl, foldlM_cons_eq_ok]
  refine ⟨_, ?_, rfl⟩
  simp only [hc', bind_ok, hone]
  rfl

end Dedisbench
