import Dedisbench.Generator.Load
import Dedisbench.Lib.Doubles
import Dedisbench.Lib.Spans
import Mathlib.Tactic.Ring

/-!
# What a loaded generator satisfies

`Loaded g info` collects what a successful `initializeGenerator` leaves behind: every line has at
least one block and starts where the lines before it end (counted in an `unsigned int`), the total
is the sum of the lines, there are a hundred vectors of ten models of the block size, and the
models are assigned by `assignModels`.  Everything later about the generator is derived from it.
-/

namespace Dedisbench

open ExceptRun Spans

/-- The numbers of blocks of the lines, in order. -/
def Generator.blockCounts (g : Generator) : List ℕ := g.linhas.map Linha.nrBlocks

/-- The number of blocks of the last line without copies, `0` if there is none. -/
def lastZeroBlocks {F : Type} (ls : List (Linha F)) : ℕ :=
  ls.foldl (fun z l => if l.nrCopies = 0 then l.nrBlocks else z) 0

/-- The lines of a loaded distribution. -/
structure LinesOk {F : Type} (ls : List (Linha F)) : Prop where
  base : ∀ {i l}, ls[i]? = some l → l.nrBase = u32 (start (ls.map Linha.nrBlocks) i)
  pos : ∀ l ∈ ls, 1 ≤ l.nrBlocks
  bound : ∀ l ∈ ls, l.nrBlocks < 2 ^ 32

/-- The models of a loaded generator. -/
structure ModelsOk (blockSize : ℕ) (modelos : List (List Buffer)) : Prop where
  length : modelos.length = nrModels
  compressions : ∀ m ∈ modelos, m.length = 10
  size : ∀ m ∈ modelos, ∀ b ∈ m, b.size = blockSize / 4096 * 4096

/-- What `initializeGenerator` leaves behind when it returns `1`. -/
structure Loaded (g : Generator) (info : DuplicatesInfo) : Prop where
  lines : LinesOk g.linhas
  total : g.totalUniqueBlocks = u32 g.blockCounts.sum
  zeroCopies : g.zeroCopiesBlocks = lastZeroBlocks g.linhas
  weights : g.weights.length = g.linhas.length
  blockSize : 4096 ≤ g.blockSize
  models : ModelsOk g.blockSize g.modelos
  assigned : ∃ x < 2 ^ 32, g.atribuicao = assignModels g.totalUniqueBlocks x
  infoZero : info.zeroCopyBlocks = g.zeroCopiesBlocks
  infoDuplicated : info.duplicatedBlocks = u32 (g.totalUniqueBlocks + 2 ^ 32 - g.zeroCopiesBlocks)

/-! ### The reading loop -/

theorem lineBlocks_eq_ok {n c k : ℕ} {p : Float} (h : lineBlocks n c p = .ok k) : 1 ≤ k ∧ k < 2 ^ 32 := by
  rw [lineBlocks, bind_eq_ok] at h
  obtain ⟨m, hm, h⟩ := h
  have hlt := toUInt_lt hm
  simp only [Except.ok.injEq] at h
  split at h <;> omega

/-- What one round of the reading loop does: it adds one line, of at least one block, after the
lines before it. -/
theorem readLine_eq_ok {n : ℕ} {s s' : ParseState} {line : List Char} (h : readLine n s line = .ok s') :
    ∃ (l : Linha Float) (w : Float), l.nrBase = s.nrBaseAux ∧ 1 ≤ l.nrBlocks ∧ l.nrBlocks < 2 ^ 32 ∧
      s' = { linhas := s.linhas ++ [l]
             weights := s.weights ++ [w]
             nrBaseAux := u32 (s.nrBaseAux + l.nrBlocks)
             zeroCopiesBlocks := if l.nrCopies = 0 then l.nrBlocks else s.zeroCopiesBlocks
             totalUniqueBlocks := u32 (s.totalUniqueBlocks + l.nrBlocks) } := by
  unfold readLine at h
  split at h
  · cases h
  · simp only [bind_eq_ok] at h
    obtain ⟨_, _, h⟩ := h
    cases h
  · simp only [bind_eq_ok] at h
    obtain ⟨copies, _, w, _, nrBlocks, hb, compression, _, h⟩ := h
    obtain ⟨hpos, hlt⟩ := lineBlocks_eq_ok hb
    simp only [Except.ok.injEq] at h
    exact ⟨⟨ofInt32 copies, nrBlocks, s.nrBaseAux, compression⟩, w, rfl, hpos, hlt, h.symm⟩

/-- The invariant of the reading loop. -/
structure ParseOk (s : ParseState) : Prop where
  lines : LinesOk s.linhas
  base : s.nrBaseAux = u32 (s.linhas.map Linha.nrBlocks).sum
  total : s.totalUniqueBlocks = u32 (s.linhas.map Linha.nrBlocks).sum
  zeroCopies : s.zeroCopiesBlocks = lastZeroBlocks s.linhas
  weights : s.weights.length = s.linhas.length

theorem LinesOk.append {F : Type} {ls : List (Linha F)} {l : Linha F} (h : LinesOk ls)
    (hbase : l.nrBase = u32 (ls.map Linha.nrBlocks).sum) (hpos : 1 ≤ l.nrBlocks) (hlt : l.nrBlocks < 2 ^ 32) :
    LinesOk (ls ++ [l]) := by
  refine ⟨?_, ?_, ?_⟩
  · intro i l' hi
    rw [List.map_append]
    rcases Nat.lt_trichotomy i ls.length with hlt' | rfl | hgt
    · rw [List.getElem?_append_left hlt'] at hi
      rw [start_append (by simpa using hlt'.le)]
      exact h.base hi
    · rw [List.getElem?_append_right le_rfl, Nat.sub_self] at hi
      simp only [List.getElem?_cons_zero, Option.some.injEq] at hi
      rw [← hi, hbase, start_append (by simp), start, List.take_of_length_le (by simp)]
    · rw [List.getElem?_eq_none (by simp; omega)] at hi
      cases hi
  · intro l' hl'
    rcases List.mem_append.mp hl' with hl' | hl'
    · exact h.pos l' hl'
    · rw [List.mem_singleton.mp hl']; exact hpos
  · intro l' hl'
    rcases List.mem_append.mp hl' with hl' | hl'
    · exact h.bound l' hl'
    · rw [List.mem_singleton.mp hl']; exact hlt

theorem readLine_parseOk {n : ℕ} {s s' : ParseState} {line : List Char} (hs : ParseOk s)
    (h : readLine n s line = .ok s') : ParseOk s' := by
  obtain ⟨l, w, hbase, hpos, hlt, rfl⟩ := readLine_eq_ok h
  refine ⟨hs.lines.append (hbase.trans hs.base) hpos hlt, ?_, ?_, ?_, ?_⟩
  · simp [hs.base, u32_add_u32]
  · simp [hs.total, u32_add_u32]
  · simp [lastZeroBlocks, List.foldl_append, hs.zeroCopies]
  · simp [hs.weights]

/-- **What is read of a distribution file.** -/
theorem readLines_parseOk {n : ℕ} {file : List Char} {s : ParseState} (h : readLines n file = .ok s) :
    ParseOk s := by
  refine foldlM_inv (P := ParseOk) (fun s line s' _ hs hstep => readLine_parseOk hs hstep) ?_ h
  refine ⟨⟨?_, ?_, ?_⟩, rfl, rfl, rfl, rfl⟩ <;> simp

theorem lastZeroBlocks_le {F : Type} (ls : List (Linha F)) : lastZeroBlocks ls ≤ (ls.map Linha.nrBlocks).sum := by
  have key : ∀ (ls : List (Linha F)) (z : ℕ),
      ls.foldl (fun z l => if l.nrCopies = 0 then l.nrBlocks else z) z ≤ z + (ls.map Linha.nrBlocks).sum := by
    intro ls
    induction ls with
    | nil => intro z; simp
    | cons l ls ih =>
      intro z
      rw [List.foldl_cons, List.map_cons, List.sum_cons]
      refine le_trans (ih _) ?_
      split <;> omega
  have h0 := key ls 0
  rwa [Nat.zero_add] at h0

/-! ### The models -/

theorem blockModel_eq_some {blockSize compression : ℕ} {seed : Float} {fresh : ByteMem.Mem} {b : Buffer}
    (h : blockModel blockSize compression seed fresh = .ok (some b)) :
    b.size = blockSize / 4096 * 4096 ∧ b.size < 2 ^ 31 := by
  unfold blockModel at h
  simp only at h
  split at h
  · cases h
  split at h
  · cases h
  next hsize =>
    split at h
    · cases h
    · simp only [Except.ok.injEq, Option.some.injEq] at h
      subst h
      exact ⟨rfl, Nat.lt_of_not_le hsize⟩

theorem buildModels_eq_some {blockSize : ℕ} {d : LoadDraws} {modelos : List (List Buffer)}
    (h : buildModels blockSize d = .ok (some modelos)) : ModelsOk blockSize modelos := by
  have hv := collectM_eq_some h
  refine ⟨by simpa using hv.length_eq.symm, ?_, ?_⟩
  · intro m hm
    obtain ⟨v, -, hvm⟩ := exists_of_mem_right hv m hm
    simpa [modelCompressions] using (collectM_eq_some hvm).length_eq.symm
  · intro m hm b hb
    obtain ⟨v, -, hvm⟩ := exists_of_mem_right hv m hm
    obtain ⟨c, -, hcb⟩ := exists_of_mem_right (collectM_eq_some hvm) b hb
    exact (blockModel_eq_some hcb).1

/-- **The share of the first model** is an `unsigned int`, and no more than the ids: the square root of a percentage is
at most one, and so is its rounding. -/
theorem exists_firstShare {pc total : ℕ} (hpc : 1 ≤ pc ∧ pc ≤ 100) (htotal : total < 2 ^ 32) :
    ∃ x ≤ total, toUInt ((Float.ofNat pc / 100).sqrt * Float.ofNat total) = .ok x := by
  have hall : ((List.range 100).all fun i => Doubles.upToOne (Float.ofNat (i + 1) / 100).sqrt) = true := by
    decide +kernel
  have hroot := List.all_eq_true.mp hall (pc - 1) (List.mem_range.mpr (by omega))
  rw [Nat.sub_add_cancel hpc.1] at hroot
  obtain ⟨m, e, his, hbottom, hone⟩ := Doubles.exists_of_upToOne hroot
  obtain ⟨hneg, hlt, hle⟩ := Doubles.mul_ofNat_le his hbottom hone htotal
  exact ⟨_, hle, if_pos ⟨hneg, hlt⟩⟩

/-- The shares of the models after the first: `r` ids over `k` models. -/
theorem sum_shares {k : ℕ} (hk : 0 < k) (r : ℕ) :
    (List.replicate (k - r % k) (r / k) ++ List.replicate (r % k) (r / k + 1)).sum = r := by
  have hlt : r % k < k := Nat.mod_lt _ hk
  obtain ⟨w, hw⟩ := Nat.exists_eq_add_of_le hlt.le
  have hkw : k - r % k = w := by omega
  rw [hkw, List.sum_append, List.sum_replicate_nat, List.sum_replicate_nat]
  calc w * (r / k) + r % k * (r / k + 1)
      = (r % k + w) * (r / k) + r % k := by ring
    _ = k * (r / k) + r % k := by rw [← hw]
    _ = r := Nat.div_add_mod r k

/-- The assignment shares out all the ids, in an `unsigned int`. -/
theorem sum_assignModels {bu x : ℕ} (hbu : bu < 2 ^ 32) (hx : x < 2 ^ 32) :
    u32 (assignModels bu x).sum = bu := by
  unfold assignModels
  rw [List.sum_cons, sum_shares (by decide)]
  unfold u32
  omega

theorem length_shares {k : ℕ} (hk : 0 < k) (r : ℕ) :
    (List.replicate (k - r % k) (r / k) ++ List.replicate (r % k) (r / k + 1)).length = k := by
  have hlt : r % k < k := Nat.mod_lt _ hk
  rw [List.length_append, List.length_replicate, List.length_replicate]
  omega

theorem length_assignModels (bu x : ℕ) : (assignModels bu x).length = nrModels := by
  unfold assignModels
  rw [List.length_cons, length_shares (by decide)]
  rfl

/-- The search for the model of an id ends if the shares, as far as an `unsigned int` counts them,
reach the id. -/
theorem Generator.modelLoop_ok {id : ℕ} : ∀ {rest : List ℕ} {indice somatorio : ℕ}, somatorio < 2 ^ 32 →
    id ≤ u32 (somatorio + rest.sum) →
    ∃ k, Generator.modelLoop id rest indice somatorio = .ok k ∧ k ≤ indice + rest.length := by
  intro rest
  induction rest with
  | nil =>
    intro indice somatorio hlt hid
    rw [List.sum_nil, Nat.add_zero, u32_of_lt hlt] at hid
    exact ⟨indice, by rw [Generator.modelLoop, if_pos hid], le_rfl⟩
  | cons a rest ih =>
    intro indice somatorio hlt hid
    rw [List.sum_cons, ← Nat.add_assoc, ← u32_add_u32] at hid
    by_cases hle : id ≤ somatorio
    · exact ⟨indice, by rw [Generator.modelLoop, if_pos hle], by omega⟩
    · obtain ⟨k, hk, hlen⟩ := @ih (indice + 1) _ (u32_lt _) hid
      refine ⟨k, ?_, ?_⟩
      · rw [Generator.modelLoop, if_neg hle]
        exact hk
      · rw [List.length_cons]
        omega

/-! ### Loading -/

/-- What `initialize` does when it succeeds: it reads the lines, estimates the compression between the blocks, and builds
the models. -/
theorem initialize_eq_ok {bs n pa pc : ℕ} {file : Option (List Char)} {d : LoadDraws} {g : Generator}
    {info : Option DuplicatesInfo} (h : initializeGenerator (.mk' bs n pa pc) file d = .ok (g, info, 1)) :
    ∃ text s interval modelos x, file = some text ∧ 4096 ≤ bs ∧ readLines n text = .ok s ∧
      getMediaInter { Generator.mk' bs n pa pc with
        linhas := s.linhas
        weights := s.weights
        zeroCopiesBlocks := s.zeroCopiesBlocks
        totalUniqueBlocks := s.totalUniqueBlocks } pa d.sample = .ok interval ∧
      buildModels bs d = .ok (some modelos) ∧
      toUInt ((Float.ofNat pc / 100).sqrt * Float.ofNat s.totalUniqueBlocks) = .ok x ∧
      g = { Generator.mk' bs n pa pc with
        linhas := s.linhas
        weights := s.weights
        zeroCopiesBlocks := s.zeroCopiesBlocks
        totalUniqueBlocks := s.totalUniqueBlocks
        compressionsInterBlocksInterval := interval
        modelos := modelos
        atribuicao := assignModels s.totalUniqueBlocks x } ∧
      info = some ⟨n, s.zeroCopiesBlocks, u32 (s.totalUniqueBlocks + 2 ^ 32 - s.zeroCopiesBlocks),
        u32 (s.totalUniqueBlocks + 2 ^ 32 - s.zeroCopiesBlocks) + 1⟩ := by
  unfold initializeGenerator at h
  split at h
  · cases h
  next hbs =>
    split at h
    · cases h
    cases file with
    | none => cases h
    | some text =>
      simp only [bind_eq_ok] at h
      obtain ⟨s, hs, interval, hinterval, ⟨g', res⟩, hload, h⟩ := h
      unfold loadModels at hload
      rw [bind_eq_ok] at hload
      obtain ⟨o, hm, hload⟩ := hload
      cases o with
      | none =>
        cases hload
        cases h
      | some modelos =>
        simp only [bind_eq_ok] at hload
        obtain ⟨x, hx, hload⟩ := hload
        cases hload
        cases h
        exact ⟨text, s, interval, modelos, x, rfl, not_lt.mp hbs, hs, hinterval, hm, hx, rfl, rfl⟩

/-- **A generator that `initialize` has loaded.** -/
theorem loaded_of_initialize {bs n pa pc : ℕ} {file : Option (List Char)} {d : LoadDraws} {g : Generator}
    {info : DuplicatesInfo} (h : initializeGenerator (.mk' bs n pa pc) file d = .ok (g, some info, 1)) :
    Loaded g info ∧ g.blockSize = bs := by
  obtain ⟨text, s, interval, modelos, x, rfl, hbs, hs, -, hm, hx, rfl, hinfo⟩ := initialize_eq_ok h
  cases hinfo
  have hp := readLines_parseOk hs
  exact ⟨⟨hp.lines, hp.total, hp.zeroCopies, hp.weights, hbs, buildModels_eq_some hm, ⟨x, toUInt_lt hx, rfl⟩, rfl, rfl⟩,
    rfl⟩

theorem Loaded.total_lt {g : Generator} {info : DuplicatesInfo} (hg : Loaded g info) :
    g.totalUniqueBlocks < 2 ^ 32 := by
  rw [hg.total]
  exact u32_lt _

/-- If the total does not wrap, it is what `initialize` tells of it. -/
theorem Loaded.zero_add_duplicated {g : Generator} {info : DuplicatesInfo} (hg : Loaded g info)
    (hsum : g.blockCounts.sum < 2 ^ 32) : info.zeroCopyBlocks + info.duplicatedBlocks = g.totalUniqueBlocks := by
  have htotal : g.totalUniqueBlocks = g.blockCounts.sum := by rw [hg.total, u32_of_lt hsum]
  have hzero : g.zeroCopiesBlocks ≤ g.totalUniqueBlocks := by
    rw [htotal, hg.zeroCopies]
    exact lastZeroBlocks_le g.linhas
  rw [hg.infoZero, hg.infoDuplicated, u32_sub_of_le hg.total_lt hzero, Nat.add_sub_cancel' hzero]

/-- **Every id up to the total has its ten models.** -/
theorem Loaded.getModel_ok {g : Generator} {info : DuplicatesInfo} (hg : Loaded g info) {id c : ℕ}
    (hid : id ≤ g.totalUniqueBlocks) (hc : c ≤ 9) : ∃ r, g.getModelByIdAndCompression id c = .ok r := by
  obtain ⟨x, hx, hassign⟩ := hg.assigned
  have hsum := sum_assignModels hg.total_lt hx
  have hlen := length_assignModels g.totalUniqueBlocks x
  rw [← hassign] at hsum hlen
  unfold Generator.getModelByIdAndCompression
  have hatr : g.atribuicao ≠ [] := by
    intro h
    rw [h] at hlen
    cases hlen
  obtain ⟨a, rest, hcons⟩ := List.exists_cons_of_ne_nil hatr
  have ha : a < 2 ^ 32 := by
    rw [hassign] at hcons
    rw [← (List.cons.inj hcons).1]
    exact hx
  rw [hcons] at hsum hlen ⊢
  rw [List.sum_cons] at hsum
  obtain ⟨k, hk, hkle⟩ := @Generator.modelLoop_ok _ _ 0 _ ha (hsum ▸ hid)
  have hk100 : k < g.modelos.length := by
    rw [hg.models.length, ← hlen, List.length_cons]
    omega
  have hc10 : c < g.modelos[k].length := by
    rw [hg.models.compressions _ (List.getElem_mem hk100)]
    omega
  have hm : g.modelAt ⟨k, c⟩ = .ok g.modelos[k][c] := by
    unfold Generator.modelAt
    rw [vecAt_eq_ok.mpr (List.getElem?_eq_getElem hk100), bind_ok]
    exact vecAt_eq_ok.mpr (List.getElem?_eq_getElem hc10)
  exact ⟨⟨k, c⟩, by simp only [hk, hm, bind_ok]⟩

/-! ### Loading by evaluation -/

/-- Whether a load succeeds, with a generator and an `info` that pass a test. -/
def loadsWith (x : Exec (Generator × Option DuplicatesInfo × ℤ)) (test : Generator → DuplicatesInfo → Bool) :
    Bool :=
  match x with
  | .ok (g, some info, 1) => test g info
  | _ => false

theorem exists_of_loadsWith {x : Exec (Generator × Option DuplicatesInfo × ℤ)}
    {T : Generator → DuplicatesInfo → Bool} (h : loadsWith x T = true) :
    ∃ g info, x = .ok (g, some info, 1) ∧ T g info = true := by
  unfold loadsWith at h
  split at h
  next g info => exact ⟨g, info, rfl, h⟩
  next => cases h

/-- Draws that are all zero, one seed, and fresh memory that is zero. -/
def plainDraws : LoadDraws := ⟨fun _ => 0, fun _ => 1.5, fun _ _ _ => 0⟩

/-- A line without copies and one with a copy, each half of the blocks. -/
def plainDistribution : List Char :=
  "0 50 10 10 10 10 10 10 10 10 10 10\n1 50 20 20 20 20 20 0 0 0 0 0\n".toList

/-- Three lines of 1000, 4294966968 and 1000 blocks (for one block to generate): the sum does not fit into an
`unsigned int`, and the ids of the last line start again inside the first. -/
def wrapDistribution : List Char :=
  "0 100000 100 0 0 0 0 0 0 0 0 0\n1 858993393664 100 0 0 0 0 0 0 0 0 0\n2 300000 0 100 0 0 0 0 0 0 0 0\n".toList

end Dedisbench
