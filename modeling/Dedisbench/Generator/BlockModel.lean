import Dedisbench.Generator.Load
import Dedisbench.Generator.Loaded

/-!
# The blocks of the models

`blockModel` fills a fresh buffer and then repeats its first hundredth.  The filling loop writes every piece of 4096
bytes to the start of the buffer, and the buffer is the size of the block rounded down to 4096, so that all bytes of a
block are defined for a size of 4096 and for no other (`modelComplete_iff`).  The copying loop does what it should: it
makes as many rounds as the compression asks for, within the buffer, and changes nothing behind them
(`copy_repeats`).
-/

namespace Dedisbench

open ExceptRun ByteMem

/-! ### The filling loop -/

/-- The filling loop assigns byte `k`: what is there behind it does not depend on what was there before. -/
def Filled (blockSize : ℕ) (seed : Float) (k : ℕ) : Prop :=
  ∀ fresh fresh' : Mem, (fillBlock seed)^[blockSize / 4096] fresh k = (fillBlock seed)^[blockSize / 4096] fresh' k

/-- The model of a block has all the bytes of the block, and all of them are assigned. -/
structure ModelComplete (blockSize compression : ℕ) (seed : Float) : Prop where
  size : ∀ fresh, ∃ b, blockModel blockSize compression seed fresh = .ok (some b) ∧ blockSize ≤ b.size
  filled : ∀ k < blockSize, Filled blockSize seed k

/-- The bytes that `pwrite` and `memcmp` take from the model do not depend on what was in the memory. -/
def ModelDefined (blockSize compression : ℕ) (seed : Float) : Prop :=
  ∃ content, ∀ fresh, ∃ b, blockModel blockSize compression seed fresh = .ok (some b) ∧ b.bytes blockSize = .ok content

section Fill

variable {seed x : Float} {m m' : Mem} {n k : ℕ}

/-- Some rounds of the filling loop. -/
theorem fill_pieces (n : ℕ) (x : Float) (m m' : Mem) :
    ∀ s s' : Mem × Float, s = (List.range n).foldl (fun (s : Mem × Float) contador =>
        (write s.1 (8 * contador) 8 (doubleBytes s.2), s.2 * seed)) (m, x) →
      s' = (List.range n).foldl (fun (s : Mem × Float) contador =>
        (write s.1 (8 * contador) 8 (doubleBytes s.2), s.2 * seed)) (m', x) →
      s.2 = s'.2 ∧ (∀ k < 8 * n, s.1 k = s'.1 k) ∧ ∀ k, 8 * n ≤ k → s.1 k = m k := by
  induction n with
  | zero =>
    rintro s s' rfl rfl
    exact ⟨rfl, fun k hk => absurd hk (by omega), fun k _ => rfl⟩
  | succ n ih =>
    rintro s s' rfl rfl
    obtain ⟨hx, hlt, hge⟩ := ih _ _ rfl rfl
    simp only [List.range_succ, List.foldl_append, List.foldl_cons, List.foldl_nil]
    refine ⟨by rw [hx], fun k hk => ?_, fun k hk => ?_⟩
    · rcases Nat.lt_or_ge k (8 * n) with hbefore | hpiece
      · rw [write_of_lt hbefore, write_of_lt hbefore]
        exact hlt k hbefore
      · rw [← Nat.add_sub_cancel' hpiece, write_at (by omega), write_at (by omega), hx]
    · rw [write_of_ge (by omega)]
      exact hge k (by omega)

theorem fillBlock_of_lt (hk : k < 4096) : fillBlock seed m k = fillBlock seed m' k := by
  unfold fillBlock
  exact (fill_pieces 512 1 m m' _ _ rfl rfl).2.1 k (by omega)

theorem fillBlock_of_ge (hk : 4096 ≤ k) : fillBlock seed m k = m k := by
  unfold fillBlock
  exact (fill_pieces 512 1 m m _ _ rfl rfl).2.2 k (by omega)

/-- However many pieces there are, they all go to the start. -/
theorem fillBlocks_of_ge (hk : 4096 ≤ k) : (fillBlock seed)^[n] m k = m k := by
  induction n generalizing m with
  | zero => rfl
  | succ n ih =>
    rw [Function.iterate_succ_apply, ih]
    exact fillBlock_of_ge hk

/-- One piece does as well. -/
theorem fillBlocks_eq (hn : 0 < n) (hk : k < 4096) : (fillBlock seed)^[n] m k = fillBlock seed m' k := by
  obtain ⟨n, rfl⟩ := Nat.exists_eq_succ_of_ne_zero hn.ne'
  rw [Function.iterate_succ_apply']
  exact fillBlock_of_lt hk

theorem fillBlocks_of_lt (hn : 0 < n) (hk : k < 4096) : (fillBlock seed)^[n] m k = (fillBlock seed)^[n] m' k :=
  calc (fillBlock seed)^[n] m k = fillBlock seed m k := fillBlocks_eq hn hk
    _ = (fillBlock seed)^[n] m' k := (fillBlocks_eq hn hk).symm

/-- **Only the first 4096 bytes are assigned.** -/
theorem filled_iff {blockSize : ℕ} (h : 4096 ≤ blockSize) : Filled blockSize seed k ↔ k < 4096 := by
  constructor
  · intro hfilled
    by_contra hk
    have hsame := hfilled (fun _ => 0) fun _ => 1
    rw [fillBlocks_of_ge (not_lt.mp hk), fillBlocks_of_ge (not_lt.mp hk)] at hsame
    cases hsame
  · intro hk fresh fresh'
    exact fillBlocks_of_lt (Nat.div_pos h (by decide)) hk

end Fill

/-! ### The copying loop -/

/-- The memory `m`, with its first `n` bytes repeated `t` times. -/
def repeated (n t : ℕ) (m : Mem) : Mem := fun i => if i < t * n then m (i % n) else m i

/-- `buffer[dst] = buffer[src]` -/
def Buffer.copyByte (b : Buffer) (dst src : ℕ) : Exec Buffer :=
  if dst < b.size ∧ src < b.size then .ok { b with byte := Function.update b.byte dst (b.byte src) }
  else .error .undefined

/-- The inner copy loop, with every access checked. -/
def Buffer.copyChunk (b : Buffer) (n pos : ℕ) : Exec Buffer :=
  (List.range n).foldlM (fun b posicaoAuxiliar => b.copyByte (pos + posicaoAuxiliar) posicaoAuxiliar) b

/-- The copy loop with every access checked, at most `k` more rounds; it also returns `contador`. -/
def Buffer.copyLoop (size n : ℕ) : ℕ → ℕ → ℕ → Buffer → Exec (ℕ × Buffer)
  | 0, contador, _, b => .ok (contador, b)
  | k + 1, contador, pos, b =>
    if pos < size - n then do
      let b ← b.copyChunk n pos
      Buffer.copyLoop size n k (contador + 1) (pos + n) b
    else .ok (contador, b)

section Copy

variable {size n pos t k c : ℕ} {m : Mem} {b : Buffer}

theorem repeated_zero (n : ℕ) (m : Mem) : repeated n 0 m = m := by
  ext i
  rw [repeated, if_neg (by omega)]

theorem copyChunk_apply (h : pos = 0 ∨ n ≤ pos) : copyChunk n pos m = write m pos n m := by
  have key : ∀ j ≤ n, (List.range j).foldl (fun b i => Function.update b (pos + i) (b i)) m = write m pos j m := by
    intro j
    induction j with
    | zero =>
      intro _
      ext i
      rw [write, if_neg (by omega)]
      rfl
    | succ j ih =>
      intro hj
      rw [List.range_succ, List.foldl_append, List.foldl_cons, List.foldl_nil, ih (by omega)]
      -- the source is either not written to, or is written to itself
      have hsource : write m pos j m j = m j := by
        rcases h with rfl | h
        · rw [write_of_ge (by omega)]
        · rw [write_of_lt (by omega)]
      ext i
      rw [hsource]
      by_cases hi : i = pos + j
      · rw [hi, Function.update_self, write_at (Nat.lt_succ_self j)]
      · rw [Function.update_of_ne hi]
        unfold write
        by_cases hin : pos ≤ i ∧ i < pos + j
        · rw [if_pos hin, if_pos (by omega)]
        · rw [if_neg hin, if_neg (by omega)]
  exact key n le_rfl

theorem write_repeated (hn : 0 < n) : write (repeated n t m) (t * n) n (repeated n t m) = repeated n (t + 1) m := by
  ext i
  have hnext : (t + 1) * n = t * n + n := Nat.succ_mul t n
  rcases Nat.lt_or_ge i (t * n) with hlt | hge
  · rw [write_of_lt hlt, repeated, repeated, if_pos hlt, if_pos (by omega)]
  · obtain ⟨j, rfl⟩ := Nat.exists_eq_add_of_le hge
    rcases Nat.lt_or_ge j n with hj | hj
    · have hmod : (t * n + j) % n = j := by
        rw [Nat.mul_comm, Nat.mul_add_mod, Nat.mod_eq_of_lt hj]
      rw [write_at hj, repeated, repeated, if_pos (show t * n + j < (t + 1) * n by omega), hmod]
      split
      · rw [Nat.mod_eq_of_lt hj]
      · rfl
    · rw [write_of_ge (by omega), repeated, repeated, if_neg (by omega), if_neg (by omega)]

/-- The guard of the loop does not stop it as long as a chunk is left behind. -/
theorem copyLoop_repeated (hn : 0 < n) : ∀ {k t : ℕ}, (t + k) * n < size →
    Dedisbench.copyLoop size n k (t * n) (repeated n t m) = repeated n (t + k) m := by
  intro k
  induction k with
  | zero =>
    intro t _
    rfl
  | succ k ih =>
    intro t hsize
    have hmul : (t + (k + 1)) * n = (t + 1 + k) * n := by rw [Nat.add_assoc, Nat.add_comm 1 k]
    have hguard : t * n < size - n := by
      have hle : (t + 1) * n ≤ (t + (k + 1)) * n := Nat.mul_le_mul_right n (by omega)
      rw [Nat.succ_mul] at hle
      omega
    have hpos : t * n = 0 ∨ n ≤ t * n := by
      rcases Nat.eq_zero_or_pos t with rfl | ht
      · exact .inl (Nat.zero_mul n)
      · exact .inr (Nat.le_mul_of_pos_left n ht)
    rw [Dedisbench.copyLoop, if_pos hguard, copyChunk_apply hpos, write_repeated hn, ← Nat.succ_mul, ih (hmul ▸ hsize),
      Nat.succ_add, Nat.add_succ]

theorem Buffer.copyChunk_eq (hpos : pos + n ≤ b.size) : b.copyChunk n pos =
    .ok { b with byte := Dedisbench.copyChunk n pos b.byte } := by
  have key : ∀ l : List ℕ, (∀ i ∈ l, i < n) → ∀ m : Mem,
      l.foldlM (fun (b : Buffer) i => b.copyByte (pos + i) i) ⟨b.size, m⟩ =
        .ok ⟨b.size, l.foldl (fun m i => Function.update m (pos + i) (m i)) m⟩ := by
    intro l
    induction l with
    | nil =>
      intro _ m
      rfl
    | cons i l ih =>
      intro hl m
      have hi := hl i List.mem_cons_self
      rw [List.foldlM_cons, Buffer.copyByte, if_pos (by dsimp only; omega)]
      exact ih (fun j hj => hl j (List.mem_cons_of_mem _ hj)) _
  exact key (List.range n) (fun i hi => List.mem_range.mp hi) b.byte

/-- **No access of the loop is outside the buffer**, and no round is missing. -/
theorem Buffer.copyLoop_eq : ∀ {k contador pos : ℕ} {b : Buffer}, size ≤ b.size → pos + k * n < size →
    Buffer.copyLoop size n k contador pos b =
      .ok (contador + k, { b with byte := Dedisbench.copyLoop size n k pos b.byte }) := by
  intro k
  induction k with
  | zero =>
    intro contador pos b _ _
    rfl
  | succ k ih =>
    intro contador pos b hsize hpos
    rw [Nat.succ_mul] at hpos
    have hguard : pos < size - n := by omega
    rw [Buffer.copyLoop, if_pos hguard, Buffer.copyChunk_eq (by omega), bind_ok, Dedisbench.copyLoop, if_pos hguard,
      @ih (contador + 1) (pos + n) { b with byte := Dedisbench.copyChunk n pos b.byte } hsize (by omega), Nat.add_assoc,
      Nat.add_comm 1 k]

/-- Ninety-nine hundredths leave something. -/
theorem mul_hundredth_lt (hc : c ≤ 99) (hsize : 4096 ≤ size) : c * (size / 100) < size := by
  have hle : c * (size / 100) ≤ 99 * (size / 100) := Nat.mul_le_mul_right _ hc
  omega

theorem copyLoop_eq_repeated (hc : c ≤ 99) (hsize : 4096 ≤ size) :
    Dedisbench.copyLoop size (size / 100) c 0 m = repeated (size / 100) c m := by
  have h := @copyLoop_repeated size (size / 100) m (by omega) c 0 (by rw [Nat.zero_add]; exact mul_hundredth_lt hc hsize)
  rwa [Nat.zero_mul, repeated_zero, Nat.zero_add] at h

theorem blockModel_eq {blockSize compression : ℕ} {seed : Float} {fresh : Mem} (hc : 1 ≤ compression ∧ compression ≤ 99)
    (h4096 : 4096 ≤ blockSize) : blockModel blockSize compression seed fresh =
      if 2 ^ 31 ≤ blockSize / 4096 * 4096 then .error .undefined
      else .ok (some ⟨blockSize / 4096 * 4096, repeated (blockSize / 4096 * 4096 / 100) compression
        ((fillBlock seed)^[blockSize / 4096] fresh)⟩) := by
  have hpos : 0 < blockSize / 4096 := Nat.div_pos h4096 (by decide)
  have hsize : 4096 ≤ blockSize / 4096 * 4096 := by omega
  rw [blockModel, if_neg (by omega)]
  dsimp only
  split
  · rfl
  · rw [if_neg (by omega), copyLoop_eq_repeated hc.2 hsize]

/-- **The copying loop repeats the share that is asked for.**  All its accesses are within the buffer, it makes as many
rounds as the compression says, each of them a copy of the first hundredth, and the bytes behind them stay. -/
theorem copy_repeats (hpos : 0 < size) (hdvd : 4096 ∣ size) (hc : 1 ≤ c ∧ c ≤ 99) (hb : b.size = size) :
    ∃ b', b.copyLoop size (size / 100) c 0 0 = .ok (c, b') ∧ b'.size = size ∧
      (∀ k < c, ∀ j < size / 100, b'.byte (k * (size / 100) + j) = b.byte j) ∧
      (∀ i, c * (size / 100) ≤ i → b'.byte i = b.byte i) ∧
      ∀ seed fresh, size < 2 ^ 31 → b.byte = (fillBlock seed)^[size / 4096] fresh →
        blockModel size c seed fresh = .ok (some b') := by
  have hsize : 4096 ≤ size := Nat.le_of_dvd hpos hdvd
  have hrun := @Buffer.copyLoop_eq size (size / 100) c 0 0 b hb.ge
    (by rw [Nat.zero_add]; exact mul_hundredth_lt hc.2 hsize)
  rw [Nat.zero_add, copyLoop_eq_repeated hc.2 hsize] at hrun
  refine ⟨_, hrun, hb, fun k hk j hj => ?_, fun i hi => ?_, fun seed fresh hlt hbase => ?_⟩
  · have hin : k * (size / 100) + j < c * (size / 100) := by
      have hle : (k + 1) * (size / 100) ≤ c * (size / 100) := Nat.mul_le_mul_right _ hk
      rw [Nat.succ_mul] at hle
      omega
    show repeated (size / 100) c b.byte _ = _
    rw [repeated, if_pos hin, Nat.mul_comm, Nat.mul_add_mod, Nat.mod_eq_of_lt hj]
  · exact if_neg (not_lt.mpr hi)
  · rw [blockModel_eq hc hsize, Nat.div_mul_cancel hdvd, if_neg (not_le.mpr hlt), ← hbase, ← hb]

theorem copy_repeats_8192 : ∃ b', (⟨8192, fun i => UInt8.ofNat i⟩ : Buffer).copyLoop 8192 81 35 0 0 = .ok (35, b') ∧
    b'.byte (34 * 81 + 80) = 80 ∧ b'.byte 2835 = 19 := by
  obtain ⟨b', hrun, -, hin, hbehind, -⟩ := @copy_repeats 8192 35 ⟨8192, fun i => UInt8.ofNat i⟩ (by decide) (by decide)
    (by decide) rfl
  exact ⟨b', hrun, (hin 34 (by decide) 80 (by decide)).trans (by decide), (hbehind 2835 (by decide)).trans (by decide)⟩

end Copy

/-! ### Which models are complete -/

section Complete

variable {blockSize compression : ℕ} {seed : Float}

theorem modelCompressions_bounds (h : compression ∈ modelCompressions) : 1 ≤ compression ∧ compression ≤ 99 := by
  simp only [modelCompressions, List.mem_map, List.mem_range] at h
  obtain ⟨i, hi, rfl⟩ := h
  omega

/-- The models that are built. -/
theorem buildModels_modelAt {d : LoadDraws} {modelos : List (List Buffer)} {v i : ℕ} {ms : List Buffer} {m : Buffer}
    (h : buildModels blockSize d = .ok (some modelos)) (hms : modelos[v]? = some ms) (hm : ms[i]? = some m) :
    5 + 10 * i ∈ modelCompressions ∧
      blockModel blockSize (5 + 10 * i) (d.seed v) (d.fresh v (5 + 10 * i)) = .ok (some m) := by
  obtain ⟨hv, rfl⟩ := List.getElem?_eq_some_iff.mp hms
  obtain ⟨hi, rfl⟩ := List.getElem?_eq_some_iff.mp hm
  have hvectors := collectM_eq_some h
  have hmodels := collectM_eq_some (hvectors.get (hvectors.length_eq ▸ hv) hv)
  have hcompression : i < modelCompressions.length := hmodels.length_eq ▸ hi
  have hmodel := hmodels.get hcompression hi
  simp only [List.get_eq_getElem, modelCompressions, List.getElem_map, List.getElem_range] at hmodel
  refine ⟨List.mem_map_of_mem (List.mem_range.mpr ?_), hmodel⟩
  simpa [modelCompressions] using hcompression

/-- The bytes of the model, where it has as many as the block. -/
theorem blockModel_bytes {fresh : Mem} {b : Buffer} {content : List UInt8} (h : 4096 ≤ blockSize)
    (hc : 1 ≤ compression ∧ compression ≤ 99) (hb : blockModel blockSize compression seed fresh = .ok (some b))
    (hbytes : b.bytes blockSize = .ok content) : 4096 ∣ blockSize ∧
      content =
        read (repeated (blockSize / 100) compression ((fillBlock seed)^[blockSize / 4096] fresh)) 0 blockSize := by
  rw [blockModel_eq hc h] at hb
  split at hb
  · cases hb
  obtain rfl := Option.some.inj (Except.ok.inj hb)
  obtain ⟨hle, hread⟩ := Buffer.bytes_eq_ok.mp hbytes
  have hdvd : blockSize / 4096 * 4096 = blockSize := le_antisymm (Nat.div_mul_le_self _ _) hle
  refine ⟨⟨blockSize / 4096, by omega⟩, ?_⟩
  rw [← hread, hdvd]

/-- The last byte of a larger block is what `malloc` left there. -/
theorem not_modelDefined (h : 4096 < blockSize) (hc : 1 ≤ compression ∧ compression ≤ 99) :
    ¬ ModelDefined blockSize compression seed := by
  rintro ⟨content, hdefined⟩
  have hlast : ∀ x : UInt8, content[blockSize - 1]? = some x := by
    intro x
    obtain ⟨b, hb, hbytes⟩ := hdefined fun _ => x
    obtain ⟨-, hcontent⟩ := blockModel_bytes h.le hc hb hbytes
    have hbehind : ¬ blockSize - 1 < compression * (blockSize / 100) := by
      have hle : compression * (blockSize / 100) ≤ 99 * (blockSize / 100) := Nat.mul_le_mul_right _ hc.2
      omega
    rw [hcontent, getElem?_read (by omega), Nat.zero_add, repeated, if_neg hbehind, fillBlocks_of_ge (by omega)]
  have hsame := (hlast 0).symm.trans (hlast 1)
  cases hsame

/-- **Which models are complete**: those of blocks of 4096 bytes.  A larger block has bytes that the filling loop does
not assign, and the copying loop does not put others there. -/
theorem modelComplete_iff (h : 4096 ≤ blockSize) (hc : compression ∈ modelCompressions) :
    (ModelComplete blockSize compression seed ↔ blockSize = 4096) ∧
      (ModelDefined blockSize compression seed ↔ blockSize = 4096) := by
  have hbounds := modelCompressions_bounds hc
  constructor
  · constructor
    · intro hcomplete
      have hlast := (filled_iff h).mp (hcomplete.filled (blockSize - 1) (by omega))
      omega
    · rintro rfl
      exact ⟨fun fresh => ⟨_, blockModel_eq hbounds h, le_rfl⟩, fun k hk => (filled_iff h).mpr hk⟩
  · constructor
    · intro hdefined
      by_contra hne
      exact not_modelDefined (lt_of_le_of_ne h (Ne.symm hne)) hbounds hdefined
    · rintro rfl
      -- the bytes over a fresh memory of zeros are those over any
      refine ⟨read (repeated 40 compression ((fillBlock seed)^[1] fun _ => 0)) 0 4096, fun fresh =>
        ⟨_, blockModel_eq hbounds h, Buffer.bytes_eq_ok.mpr ⟨le_rfl, read_eq_read_iff.mpr fun i hi => ?_⟩⟩⟩
      show repeated 40 compression ((fillBlock seed)^[1] fresh) (0 + i) = _
      rw [Nat.zero_add, repeated, repeated]
      split
      · exact fillBlocks_of_lt (by decide) ((Nat.mod_le i 40).trans_lt hi)
      · exact fillBlocks_of_lt (by decide) hi

theorem modelComplete_4096 : ModelComplete 4096 5 1.5 ∧ ModelDefined 4096 5 1.5 :=
  have h := @modelComplete_iff 4096 5 1.5 (by decide) (by decide)
  ⟨h.1.mpr rfl, h.2.mpr rfl⟩

/-- In a block of 8192 bytes the byte at 4096 is not assigned, and the last byte comes from `malloc`. -/
theorem not_modelComplete_8192 : 4096 ≤ 8192 ∧ 5 ∈ modelCompressions ∧ ¬ ModelComplete 8192 5 1.5 ∧
    ¬ ModelDefined 8192 5 1.5 := by
  refine ⟨by decide, by decide, fun hcomplete => ?_, not_modelDefined (by decide) (by decide)⟩
  exact absurd ((filled_iff (by decide)).mp (hcomplete.filled 4096 (by decide))) (by decide)

end Complete

end Dedisbench
