import Dedisbench.Bench.Config
import Dedisbench.Bench.Run

/-!
# Two runs with one seed

A process draws from two random number generators.  `SFMT` decides the offsets, and `init_io` seeds it with the seed
of the configuration; `std::mt19937` decides the blocks, and `initialize_random` seeds it with whatever `random_device`
returns.  So the offsets of two runs are the same, and their blocks are the same exactly if the draws happen to name
the same ones (`workload_repeats_iff`).
-/

namespace Dedisbench

open ExceptRun

/-! ### A process and its seeds -/

/-- The random number generators, by what they are seeded with: the numbers that `SFMT` draws, in the order in which
they are asked for, and what the distributions draw from `std::mt19937` for each block. -/
structure Engines where
  sfmt : ℕ → List ℕ
  mt19937 : ℕ → ℕ → Generator.Draw

/-- `init_rand` -/
def Engines.initRand (E : Engines) (seed : ℕ) : List ℕ := E.sfmt (u32 seed)

/-- `Generator::initialize_random`, where `random_device` returns `rd`. -/
def Engines.initializeRandom (E : Engines) (rd : ℕ) : ℕ → Generator.Draw := E.mt19937 (u32 rd)

/-- `init_io`: the constant of the process, and what `SFMT` draws after it. -/
def initIo (E : Engines) (conf : Conf) (seed procid : ℕ) : Exec (ℕ × List ℕ) :=
  initIoposition conf (E.initRand (u64 (seed + procid)))

/-- `procid_r` -/
def Conf.procidR (conf : Conf) (iotype : IoType) (idproc : ℕ) : ℕ :=
  if conf.mixedIO = true ∧ iotype = .read then idproc + conf.nprocs / 2 else idproc

/-- An operation: its offset, and the block id and the content id if it is a write. -/
structure Request where
  offset : ℕ
  ids : Option (ℕ × ℕ)
  deriving DecidableEq

/-- A process: its loop, its generator, the constant and the draws that `init_io` left, and its operations so far. -/
structure Process where
  loop : LoopState
  gen : Generator
  cNurand : ℕ
  raws : List ℕ
  requests : List Request

/-- The clock readings of a round. -/
structure Readings where
  t1 : ℕ
  t2 : ℕ
  lap : ℕ
  tim : ℕ

/-- `write_request` or `read_request` -/
def Process.request (conf : Conf) (iotype : IoType) (idproc : ℕ) (draws : ℕ → Generator.Draw) (p : Process) :
    Exec Process := do
  let (gen, ids) ← match iotype with
    | .write => do
      let (gen, _, infoWrite) ← getWritecontent p.gen idproc (draws p.requests.length)
      .ok (gen, some (infoWrite.blockId, infoWrite.contId))
    | .read => .ok (p.gen, none)
  let (offset, raws) ← getIoposition conf p.loop.stat.totOps p.cNurand idproc p.raws
  .ok { p with gen, raws, requests := p.requests ++ [⟨offset, ids⟩] }

/-- The loop goes on. -/
def LoopState.GoesOn (s : LoopState) : Prop := s.beginTime < s.endTime ∧ s.beginSize < s.endSize

instance : DecidablePred LoopState.GoesOn := fun s =>
  inferInstanceAs (Decidable (s.beginTime < s.endTime ∧ s.beginSize < s.endSize))

/-- A round of the loop of `process_run`. -/
def Process.round (conf : Conf) (r : RunConf) (iotype : IoType) (idproc : ℕ) (draws : ℕ → Generator.Draw) (p : Process)
    (c : Readings) : Exec Process := do
  let loop ← loopStep conf r p.cNurand idproc p.loop ⟨p.raws, c.t1, c.t2, c.lap, c.tim⟩
  if p.loop.GoesOn ∧ r.issues p.loop = true then do
    let p ← p.request conf iotype idproc draws
    .ok { p with loop }
  else .ok { p with loop }

/-- What a run meets outside: what `initialize` draws and `malloc` gives it, what `random_device` returns to each
process, and the clock of each process, before its loop and in its rounds. -/
structure Outside where
  load : LoadDraws
  device : ℕ → ℕ
  tim : ℕ → ℕ
  base : ℕ → ℕ
  readings : ℕ → List Readings

/-- `process_run` up to its loop. -/
def Process.start (E : Engines) (conf : Conf) (r : RunConf) (seed procid : ℕ) (gen : Generator) (tim base : ℕ) :
    Exec Process := do
  let (cNurand, raws) ← initIo E conf seed procid
  let loop ← loopInit r tim base
  .ok ⟨loop, gen, cNurand, raws, []⟩

/-- A process of a run gets to `p`.  Its generator has been loaded from the distribution file, and the parent may have
populated files with it. -/
def Reaches (E : Engines) (conf : Conf) (r : RunConf) (seed : ℕ) (file : Option (List Char)) (iotype : IoType)
    (idproc : ℕ) (o : Outside) (p : Process) : Prop :=
  ∃ g₀ info gen p₀, initializeGenerator conf.generator file o.load = .ok (g₀, some info, 1) ∧
    Generator.Reach g₀ gen ∧
    Process.start E conf r seed (conf.procidR iotype idproc) gen (o.tim (conf.procidR iotype idproc))
      (o.base (conf.procidR iotype idproc)) = .ok p₀ ∧
    (o.readings (conf.procidR iotype idproc)).foldlM (Process.round conf r iotype idproc
      (E.initializeRandom (o.device (conf.procidR iotype idproc)))) p₀ = .ok p

/-- A test that ends by size alone. -/
structure RunConf.SizeOnly (r : RunConf) : Prop where
  size : r.flagTerminationSize = true
  time : r.flagTerminationTime = false
  numberOps_lt : r.numberOps < 2 ^ 64

/-- A peak test that ends by size. -/
structure RunConf.SizePeak (r : RunConf) : Prop where
  peak : r.testtype = .peak
  size : r.flagTerminationSize = true
  time : r.flagTerminationTime = false
  numberOps_lt : r.numberOps < 2 ^ 64

/-! ### The blocks that draws name -/

/-- The block id and the content id that draws name. -/
def Generator.named (g : Generator) (d : Generator.Draw) : Exec (ℕ × ℕ) := do
  let l ← g.getLinha d.line
  let pos ← Generator.getRandomBlockFromLine l d.pos
  let contId ← g.drawContent (u32 (pos + l.nrBase)) d.content
  .ok (u32 (pos + l.nrBase), contId)

/-- The draws name the same block: the positions drawn in the lines drawn have one id, and, where a content id is drawn
for it, that is the same too. -/
def SameBlock (g : Generator) (d d' : Generator.Draw) : Prop :=
  ∃ l l', g.linhas[d.line % g.weights.length]? = some l ∧ g.linhas[d'.line % g.weights.length]? = some l' ∧
    u32 (1 + d.pos % l.nrBlocks + l.nrBase) = u32 (1 + d'.pos % l'.nrBlocks + l'.nrBase) ∧
    (u32 (1 + d.pos % l.nrBlocks + l.nrBase) < firstZeroBlocks g.linhas →
      d.content % (2 ^ 32 - g.totalUniqueBlocks) = d'.content % (2 ^ 32 - g.totalUniqueBlocks))

section Named

variable {g g' g₀ : Generator} {d d' : Generator.Draw} {x x' : ℕ × ℕ} {r : ModelRef} {b b' : BlockInfo}
  {bs n pa pc idproc : ℕ} {file : Option (List Char)} {ld ld' : LoadDraws} {info info' : DuplicatesInfo}

theorem Generator.named_congr (hl : g'.linhas = g.linhas) (hw : g'.weights = g.weights)
    (ht : g'.totalUniqueBlocks = g.totalUniqueBlocks) (d : Generator.Draw) : g'.named d = g.named d := by
  unfold named getLinha drawContent randomises
  rw [hl, hw, ht]

theorem Generator.named_of_getWritecontent (h : getWritecontent g idproc d = .ok (g', r, b)) :
    g.named d = .ok (b.blockId, b.contId) := by
  rw [getWritecontent, bind_eq_ok] at h
  obtain ⟨⟨g₁, r₁, b₁⟩, hn, h⟩ := h
  cases h
  have hdraw := (nextBlock_content hn).1
  obtain ⟨l, pos, ci, res, hl, hpos, -, -, rfl⟩ := nextBlock_eq_ok.mp hn
  simp only [named, hl, hpos, bind_ok]
  dsimp only at hdraw ⊢
  rw [hdraw, bind_ok]

theorem uniformInt_inj {lo hi raw raw' v v' : ℕ} (h : uniformInt lo hi raw = .ok v)
    (h' : uniformInt lo hi raw' = .ok v') :
    v = v' ↔ raw % (hi - lo + 1) = raw' % (hi - lo + 1) := by
  unfold uniformInt at h h'
  split at h
  next hle =>
    rw [if_pos hle] at h'
    cases h
    cases h'
    exact Nat.add_left_cancel_iff
  next => cases h

/-- What is named, in terms of the draws. -/
theorem Generator.named_eq_ok (h : g.named d = .ok x) : ∃ l, g.linhas[d.line % g.weights.length]? = some l ∧
    x.1 = u32 (1 + d.pos % l.nrBlocks + l.nrBase) ∧ g.drawContent x.1 d.content = .ok x.2 := by
  unfold named at h
  simp only [bind_eq_ok] at h
  obtain ⟨l, hl, pos, hpos, c, hc, h⟩ := h
  cases h
  refine ⟨l, vecAt_eq_ok.mp hl, ?_, hc⟩
  unfold getRandomBlockFromLine uniformInt at hpos
  split at hpos
  next hle =>
    cases hpos
    rw [Nat.sub_add_cancel hle]
  next => cases hpos

/-- **Draws name the same ids** exactly if they name the same block. -/
theorem Generator.named_eq_iff (h : g.named d = .ok x) (h' : g.named d' = .ok x') : x = x' ↔ SameBlock g d d' := by
  obtain ⟨l, hl, hid, hcont⟩ := named_eq_ok h
  obtain ⟨l', hl', hid', hcont'⟩ := named_eq_ok h'
  have hcontent : x.1 = x'.1 → (x.2 = x'.2 ↔ (x.1 < firstZeroBlocks g.linhas →
      d.content % (2 ^ 32 - g.totalUniqueBlocks) = d'.content % (2 ^ 32 - g.totalUniqueBlocks))) := by
    intro heq
    rw [← heq] at hcont'
    by_cases hlt : x.1 < firstZeroBlocks g.linhas
    · rw [drawContent_of_lt hlt] at hcont hcont'
      have hle := (uniformInt_eq_ok hcont).1.trans (uniformInt_eq_ok hcont).2
      have hrange : uintMax - g.totalUniqueBlocks + 1 = 2 ^ 32 - g.totalUniqueBlocks := by
        unfold uintMax at hle ⊢
        omega
      rw [uniformInt_inj hcont hcont', hrange]
      exact ⟨fun h _ => h, fun h => h hlt⟩
    · rw [drawContent_of_ge (not_lt.mp hlt)] at hcont hcont'
      exact ⟨fun _ hlt' => absurd hlt' hlt, fun _ => Except.ok.inj (hcont.symm.trans hcont')⟩
  constructor
  · rintro rfl
    exact ⟨l, l', hl, hl', hid.symm.trans hid', fun hlt => (hcontent rfl).mp rfl (hid ▸ hlt)⟩
  · rintro ⟨m, m', hm, hm', heq, hsame⟩
    obtain rfl : l = m := Option.some.inj (hl.symm.trans hm)
    obtain rfl : l' = m' := Option.some.inj (hl'.symm.trans hm')
    have hids : x.1 = x'.1 := hid.trans (heq.trans hid'.symm)
    exact Prod.ext hids ((hcontent hids).mpr fun hlt => hsame (hid ▸ hlt))

/-- The id of a position of a line, where the ids do not wrap. -/
theorem Loaded.id_mem {i pos : ℕ} {l : Linha Float} (hg : Loaded g info) (hsum : g.blockCounts.sum < 2 ^ 32)
    (hl : g.linhas[i]? = some l) : u32 (1 + pos % l.nrBlocks + l.nrBase) = 1 + pos % l.nrBlocks + l.nrBase ∧
      1 + pos % l.nrBlocks + l.nrBase ∈ l.ids := by
  have hend := hg.lines.ids_le hsum hl
  have hpos := hg.lines.pos l (List.mem_of_getElem? hl)
  have hlt : pos % l.nrBlocks < l.nrBlocks := Nat.mod_lt _ hpos
  have hsum' : (g.linhas.map Linha.nrBlocks).sum < 2 ^ 32 := hsum
  refine ⟨u32_of_lt (by omega), ?_⟩
  show l.nrBase < _ ∧ _ ≤ l.nrBase + l.nrBlocks
  omega

/-- Where the ids do not wrap, that is the same position of the same line. -/
theorem Loaded.sameBlock_iff (hg : Loaded g info) (hsum : g.blockCounts.sum < 2 ^ 32) (h : g.named d = .ok x)
    (h' : g.named d' = .ok x') : SameBlock g d d' ↔
      d.line % g.weights.length = d'.line % g.weights.length ∧
      (∀ l, g.linhas[d.line % g.weights.length]? = some l → d.pos % l.nrBlocks = d'.pos % l.nrBlocks) ∧
      (x.1 < firstZeroBlocks g.linhas →
        d.content % (2 ^ 32 - g.totalUniqueBlocks) = d'.content % (2 ^ 32 - g.totalUniqueBlocks)) := by
  obtain ⟨l, hl, hid, -⟩ := Generator.named_eq_ok h
  obtain ⟨l', hl', -, -⟩ := Generator.named_eq_ok h'
  obtain ⟨hu, hmem⟩ := @Loaded.id_mem g info _ d.pos l hg hsum hl
  obtain ⟨hu', hmem'⟩ := @Loaded.id_mem g info _ d'.pos l' hg hsum hl'
  constructor
  · rintro ⟨m, m', hm, hm', heq, hsame⟩
    obtain rfl : l = m := Option.some.inj (hl.symm.trans hm)
    obtain rfl : l' = m' := Option.some.inj (hl'.symm.trans hm')
    rw [hu, hu'] at heq
    have hline : d.line % g.weights.length = d'.line % g.weights.length :=
      hg.lines.line_unique hsum hl hl' hmem (heq ▸ hmem')
    obtain rfl : l = l' := Option.some.inj (hl.symm.trans (hline ▸ hl'))
    refine ⟨hline, fun m hm => ?_, fun hlt => hsame (hid ▸ hlt)⟩
    obtain rfl : l = m := Option.some.inj (hl.symm.trans hm)
    omega
  · rintro ⟨hline, hpos, hsame⟩
    obtain rfl : l = l' := Option.some.inj (hl.symm.trans (hline ▸ hl'))
    exact ⟨l, l, hl, hl', by rw [hpos l hl], fun hlt => hsame (hid ▸ hlt)⟩

/-- **Two loads of one file** name the same blocks, whatever they draw. -/
theorem named_of_initialize (h : initializeGenerator (.mk' bs n pa pc) file ld = .ok (g, some info, 1))
    (h' : initializeGenerator (.mk' bs n pa pc) file ld' = .ok (g', some info', 1)) (d : Generator.Draw) :
    g'.named d = g.named d := by
  -- the lines are read before anything is drawn
  obtain ⟨text, s, -, -, -, htext, -, hs, -, -, -, rfl, -⟩ := initialize_eq_ok h
  obtain ⟨text', s', -, -, -, htext', -, hs', -, -, -, rfl, -⟩ := initialize_eq_ok h'
  obtain rfl : text = text' := Option.some.inj (htext.symm.trans htext')
  obtain rfl : s = s' := Except.ok.inj (hs.symm.trans hs')
  exact Generator.named_congr rfl rfl rfl d

end Named

/-! ### The offsets -/

/-- The offsets of the first `n` operations of a process, and what `SFMT` draws behind them. -/
def firstOffsets (conf : Conf) (idproc cNurand : ℕ) (raws : List ℕ) (n : ℕ) : Exec (List ℕ × List ℕ) :=
  (List.range n).foldlM (fun s k => do
    let (offset, raws) ← getIoposition conf k cNurand idproc s.2
    .ok (s.1 ++ [offset], raws)) ([], raws)

section Offsets

variable {conf : Conf} {idproc cNurand : ℕ} {raws : List ℕ} {n : ℕ} {x : List ℕ × List ℕ}

theorem firstOffsets_succ : firstOffsets conf idproc cNurand raws (n + 1) = .ok x ↔
    ∃ y off rest, firstOffsets conf idproc cNurand raws n = .ok y ∧
      getIoposition conf n cNurand idproc y.2 = .ok (off, rest) ∧ (y.1 ++ [off], rest) = x := by
  rw [firstOffsets, List.range_succ, foldlM_append_eq_ok]
  simp only [foldlM_cons_eq_ok, foldlM_nil_eq_ok, bind_eq_ok, Prod.exists]
  constructor
  · rintro ⟨l, rest₀, hy, _, _, ⟨off, rest, hoff, h⟩, hx⟩
    exact ⟨l, rest₀, off, rest, hy, hoff, (Except.ok.inj h).trans hx⟩
  · rintro ⟨l, rest₀, off, rest, hy, hoff, hx⟩
    exact ⟨l, rest₀, hy, _, _, ⟨off, rest, hoff, rfl⟩, hx⟩

/-- Fewer offsets are the first of them. -/
theorem firstOffsets_take {m : ℕ} (hm : m ≤ n) (h : firstOffsets conf idproc cNurand raws n = .ok x) :
    x.1.length = n ∧ ∃ rest, firstOffsets conf idproc cNurand raws m = .ok (x.1.take m, rest) := by
  induction n generalizing x m with
  | zero =>
    obtain rfl := Nat.le_zero.mp hm
    cases h
    exact ⟨rfl, raws, rfl⟩
  | succ n ih =>
    obtain ⟨y, off, rest, hy, hoff, rfl⟩ := firstOffsets_succ.mp h
    rcases Nat.lt_or_ge n m with hlt | hle
    · obtain rfl : m = n + 1 := by omega
      obtain ⟨hlen, -⟩ := ih (le_refl n) hy
      have hlen' : (y.1 ++ [off]).length = n + 1 := by rw [List.length_append, hlen, List.length_singleton]
      refine ⟨hlen', rest, ?_⟩
      rw [List.take_of_length_le hlen'.le]
      exact h
    · obtain ⟨hlen, rest', h'⟩ := ih hle hy
      refine ⟨by rw [List.length_append, hlen, List.length_singleton], rest', ?_⟩
      rw [List.take_append_of_le_length (by omega)]
      exact h'

end Offsets

/-! ### A run -/

/-- The loop of a test that ends by size, with `n` operations behind it. -/
structure SizeLoop (r : RunConf) (n : ℕ) (s : LoopState) : Prop where
  beginTime : s.beginTime = 2 ^ 64 - 2
  endTime : s.endTime = 2 ^ 64 - 1
  ruBegin : s.ruBegin = 0
  beginSize : s.beginSize = n
  endSize : s.endSize = r.numberOps / r.nproc
  le : n ≤ r.numberOps / r.nproc
  totOps : s.stat.totOps = n

/-- The ids of an operation are those that its draws name. -/
def NamedBy (g : Generator) (iotype : IoType) (d : Generator.Draw) (ids : Option (ℕ × ℕ)) : Prop :=
  match iotype with
  | .read => ids = none
  | .write => ∃ x, g.named d = .ok x ∧ ids = some x

/-- The invariant of a process: the offsets are those that `SFMT` gives, and the ids those that `mt19937` gives. -/
structure ProcessInv (conf : Conf) (r : RunConf) (iotype : IoType) (idproc : ℕ) (draws : ℕ → Generator.Draw)
    (g₀ : Generator) (cNurand : ℕ) (raws : List ℕ) (p : Process) : Prop where
  loop : SizeLoop r p.requests.length p.loop
  gen : p.gen.frame = g₀.frame
  constant : p.cNurand = cNurand
  offsets : firstOffsets conf idproc cNurand raws p.requests.length = .ok (p.requests.map Request.offset, p.raws)
  ids : ∀ k q, p.requests[k]? = some q → NamedBy g₀ iotype (draws k) q.ids

section Run

variable {conf : Conf} {r : RunConf} {iotype : IoType} {idproc cNurand n : ℕ} {draws : ℕ → Generator.Draw}
  {g₀ : Generator} {raws : List ℕ} {p p' : Process} {s s' : LoopState} {t : Tick} {c : Readings}

theorem RunConf.SizePeak.sizeOnly (hr : r.SizePeak) : r.SizeOnly := ⟨hr.size, hr.time, hr.numberOps_lt⟩

theorem loopInit_sizeLoop {tim base : ℕ} (hr : r.SizeOnly) (h : loopInit r tim base = .ok s) : SizeLoop r 0 s := by
  unfold loopInit RunConf.timeLimits RunConf.sizeLimits at h
  simp only [hr.time, hr.size, bind_ok, if_true, Bool.false_eq_true, if_false] at h
  split at h
  · cases h
  · cases h
    exact ⟨rfl, rfl, rfl, rfl, rfl, Nat.zero_le _, rfl⟩

theorem SizeLoop.goesOn_iff (h : SizeLoop r n s) : s.GoesOn ↔ n < r.numberOps / r.nproc := by
  unfold LoopState.GoesOn
  rw [h.beginTime, h.endTime, h.beginSize, h.endSize]
  omega

/-- **A round**: the loop is over, or it idles, or it issues one more operation. -/
theorem SizeLoop.round (hr : r.SizeOnly) (hs : SizeLoop r n s) (h : loopStep conf r cNurand idproc s t = .ok s') :
    (¬ s.GoesOn ∧ s' = s) ∨ (s.GoesOn ∧ r.issues s = false ∧ s' = s.advance r t ∧ SizeLoop r n s') ∨
      (s.GoesOn ∧ r.issues s = true ∧ SizeLoop r (n + 1) s' ∧ s'.issued.length = s.issued.length + 1 ∧
        s'.base = t.lap ∧ s'.timeElapsed = s.timeElapsed + ((t.lap : ℚ) - s.base)) := by
  rcases loopStep_cases h with ⟨hstop, rfl⟩ | ⟨hgo, -, s₁, rfl, ⟨hissues, rfl⟩ | ⟨hissues, hissue⟩⟩
  · exact .inl ⟨hstop, rfl⟩
  · refine .inr (.inl ⟨hgo, hissues, rfl, ?_, hs.endTime, hs.ruBegin, hs.beginSize, hs.endSize, hs.le, hs.totOps⟩)
    simp only [LoopState.advance, hr.time]
    exact hs.beginTime
  · have hlt := hs.goesOn_iff.mp hgo
    have hn : n + 1 < 2 ^ 64 := by
      have hops := (Nat.div_le_self r.numberOps r.nproc).trans_lt hr.numberOps_lt
      omega
    have hmeasured : s.measured = true := by
      rw [LoopState.measured, hs.ruBegin]
      exact decide_eq_true (Nat.zero_le _)
    obtain ⟨off, rest, -, hissued, htotOps, hbegin, hru, hbase, helapsed⟩ := LoopState.issue_eq_ok hissue
    obtain ⟨hend, hbeginSize, hendSize⟩ := LoopState.issue_limits hissue
    rw [hmeasured, if_pos rfl, hs.totOps, u64_of_lt hn] at htotOps
    rw [if_pos hr.size, hs.beginSize, u64_of_lt hn] at hbeginSize
    refine .inr (.inr ⟨hgo, hissues, ⟨?_, hend.trans hs.endTime, hru.trans hs.ruBegin, hbeginSize,
      hendSize.trans hs.endSize, hlt, htotOps⟩, ?_, rfl, ?_⟩)
    · simp only [LoopState.advance, hr.time]
      exact hbegin.trans hs.beginTime
    · show s₁.issued.length = _
      rw [hissued, List.length_append, List.length_singleton]
    · show s₁.timeElapsed + ((t.lap : ℚ) - s₁.base) = _
      rw [helapsed, hbase]

/-- At a peak, a round issues an operation until all are issued. -/
theorem SizeLoop.step (hr : r.SizePeak) (hs : SizeLoop r n s) (h : loopStep conf r cNurand idproc s t = .ok s') :
    (s.GoesOn → r.issues s = true ∧ SizeLoop r (n + 1) s') ∧ (¬ s.GoesOn → s' = s) := by
  have hpeak : r.issues s = true := by simp [RunConf.issues, hr.peak]
  rcases hs.round hr.sizeOnly h with ⟨hstop, rfl⟩ | ⟨-, hissues, -⟩ | ⟨hgo, -, hnext, -⟩
  · exact ⟨fun hgo => absurd hgo hstop, fun _ => rfl⟩
  · rw [hpeak] at hissues
    cases hissues
  · exact ⟨fun _ => ⟨hpeak, hnext⟩, fun hstop => absurd hgo hstop⟩

/-- What a request does. -/
theorem Process.request_eq_ok (h : p.request conf iotype idproc draws = .ok p') : ∃ off ids rest,
    getIoposition conf p.loop.stat.totOps p.cNurand idproc p.raws = .ok (off, rest) ∧
      NamedBy p.gen iotype (draws p.requests.length) ids ∧ p'.requests = p.requests ++ [⟨off, ids⟩] ∧ p'.raws = rest ∧
      p'.gen.frame = p.gen.frame ∧ p'.cNurand = p.cNurand := by
  unfold Process.request at h
  cases iotype with
  | read =>
    simp only [bind_ok, bind_eq_ok] at h
    obtain ⟨⟨off, rest⟩, hoff, h⟩ := h
    cases h
    exact ⟨off, none, rest, hoff, rfl, rfl, rfl, rfl, rfl⟩
  | write =>
    simp only [bind_eq_ok] at h
    obtain ⟨⟨gen, m, b⟩, hw, _, ⟨⟩, ⟨off, rest⟩, hoff, h⟩ := h
    cases h
    obtain ⟨⟨g₁, m₁, b₁⟩, hn, hb⟩ := bind_eq_ok.mp hw
    cases hb
    exact ⟨off, _, rest, hoff, ⟨_, Generator.named_of_getWritecontent hw, rfl⟩, rfl, rfl,
      Generator.nextBlock_frame hn, rfl⟩

theorem NamedBy.of_frame {g : Generator} {d : Generator.Draw} {ids : Option (ℕ × ℕ)} (h : NamedBy g iotype d ids)
    (hf : g.frame = g₀.frame) : NamedBy g₀ iotype d ids := by
  cases iotype with
  | read => exact h
  | write =>
    obtain ⟨x, hx, hids⟩ := h
    refine ⟨x, ?_, hids⟩
    rw [← Generator.named_congr (Generator.linhas_of_frame hf) (Generator.weights_of_frame hf)
      (Generator.total_of_frame hf)]
    exact hx

/-- **Every round keeps the invariant.** -/
theorem ProcessInv.round (hr : r.SizePeak) (hp : ProcessInv conf r iotype idproc draws g₀ cNurand raws p)
    (h : p.round conf r iotype idproc draws c = .ok p') : ProcessInv conf r iotype idproc draws g₀ cNurand raws p' := by
  rw [Process.round, bind_eq_ok] at h
  obtain ⟨loop, hloop, h⟩ := h
  obtain ⟨hgo, hstop⟩ := hp.loop.step hr hloop
  by_cases hgoes : p.loop.GoesOn
  · obtain ⟨hissues, hnext⟩ := hgo hgoes
    rw [if_pos ⟨hgoes, hissues⟩, bind_eq_ok] at h
    obtain ⟨p₁, hreq, h⟩ := h
    cases h
    obtain ⟨off, ids, rest, hoff, hids, hrequests, hraws, hgen, hc⟩ := Process.request_eq_ok hreq
    have hlen : p₁.requests.length = p.requests.length + 1 := by
      rw [hrequests, List.length_append, List.length_singleton]
    refine ⟨?_, hgen.trans hp.gen, hc.trans hp.constant, ?_, fun k q hk => ?_⟩
    · show SizeLoop r p₁.requests.length loop
      rw [hlen]
      exact hnext
    · show firstOffsets conf idproc cNurand raws p₁.requests.length = _
      rw [hlen]
      refine firstOffsets_succ.mpr ⟨_, off, rest, hp.offsets, ?_, ?_⟩
      · rw [hp.loop.totOps, hp.constant] at hoff
        exact hoff
      · simp [hrequests, hraws]
    · have hk : p₁.requests[k]? = some q := hk
      rw [hrequests] at hk
      rcases Nat.lt_or_ge k p.requests.length with hlt | hge
      · rw [List.getElem?_append_left hlt] at hk
        exact hp.ids k q hk
      · -- the operation issued now
        rw [List.getElem?_append_right hge] at hk
        have hlast : k = p.requests.length := by
          have := (List.getElem?_eq_some_iff.mp hk).1
          simp only [List.length_singleton] at this
          omega
        rw [hlast, Nat.sub_self] at hk
        cases hk
        rw [hlast]
        exact hids.of_frame hp.gen
  · rw [if_neg fun hcon => hgoes hcon.1] at h
    cases h
    obtain rfl := hstop hgoes
    exact hp

/-- What is known of a process that has got somewhere. -/
theorem processInv_of_reaches {E : Engines} {seed : ℕ} {file : Option (List Char)} {o : Outside} (hr : r.SizePeak)
    (h : Reaches E conf r seed file iotype idproc o p) : ∃ g₀ info cNurand raws,
      initializeGenerator conf.generator file o.load = .ok (g₀, some info, 1) ∧
      initIo E conf seed (conf.procidR iotype idproc) = .ok (cNurand, raws) ∧
      ProcessInv conf r iotype idproc (E.initializeRandom (o.device (conf.procidR iotype idproc))) g₀ cNurand raws p := by
  obtain ⟨g₀, info, gen, p₀, hload, hreach, hstart, hrun⟩ := h
  rw [Process.start, bind_eq_ok] at hstart
  obtain ⟨⟨cNurand, raws⟩, hio, hstart⟩ := hstart
  rw [bind_eq_ok] at hstart
  obtain ⟨loop, hloop, hstart⟩ := hstart
  cases hstart
  have hstart : ProcessInv conf r iotype idproc (E.initializeRandom (o.device (conf.procidR iotype idproc))) g₀ cNurand
      raws ⟨loop, gen, cNurand, raws, []⟩ := by
    refine ⟨loopInit_sizeLoop hr.sizeOnly hloop, hreach.frame_eq, rfl, rfl, fun k q hk => ?_⟩
    cases hk
  exact ⟨g₀, info, cNurand, raws, hload, hio, foldlM_inv (fun _ _ _ _ hp hstep => hp.round hr hstep) hstart hrun⟩

/-- An operation of a process. -/
theorem ProcessInv.offset (h : ProcessInv conf r iotype idproc draws g₀ cNurand raws p) {k : ℕ} {q : Request}
    (hq : p.requests[k]? = some q) : ∃ x, firstOffsets conf idproc cNurand raws (k + 1) = .ok x ∧
      x.1[k]? = some q.offset := by
  have hk := (List.getElem?_eq_some_iff.mp hq).1
  obtain ⟨-, rest, htake⟩ := firstOffsets_take (Nat.succ_le_of_lt hk) h.offsets
  refine ⟨_, htake, ?_⟩
  rw [List.getElem?_take_of_lt (Nat.lt_succ_self k), List.getElem?_map, hq, Option.map_some]

theorem ProcessInv.length_of_ended (h : ProcessInv conf r iotype idproc draws g₀ cNurand raws p)
    (hend : ¬ p.loop.GoesOn) : p.requests.length = r.numberOps / r.nproc := by
  have hle := h.loop.le
  have hge := mt h.loop.goesOn_iff.mpr hend
  omega

/-- **Two processes with one constant and one `SFMT`**, whose generators name the same. -/
theorem ProcessInv.request_iff {draws' : ℕ → Generator.Draw} {g₁ : Generator} {k : ℕ} {q q' : Request}
    (hp : ProcessInv conf r iotype idproc draws g₀ cNurand raws p)
    (hp' : ProcessInv conf r iotype idproc draws' g₁ cNurand raws p') (hnamed : ∀ d, g₁.named d = g₀.named d)
    (hq : p.requests[k]? = some q) (hq' : p'.requests[k]? = some q') :
    q.offset = q'.offset ∧ (q = q' ↔ (iotype = .write → SameBlock g₀ (draws k) (draws' k))) := by
  obtain ⟨x, hx, hxk⟩ := hp.offset hq
  obtain ⟨x', hx', hxk'⟩ := hp'.offset hq'
  obtain rfl : x = x' := Except.ok.inj (hx.symm.trans hx')
  have hoff : q.offset = q'.offset := Option.some.inj (hxk.symm.trans hxk')
  have hids : q = q' ↔ q.ids = q'.ids := by
    cases q
    cases q'
    simp_all
  refine ⟨hoff, hids.trans ?_⟩
  have hby := hp.ids k q hq
  have hby' := hp'.ids k q' hq'
  cases iotype with
  | read =>
    exact ⟨fun _ hcon => (nomatch hcon), fun _ => hby.trans hby'.symm⟩
  | write =>
    obtain ⟨y, hy, hyids⟩ := hby
    obtain ⟨y', hy', hyids'⟩ := hby'
    rw [hnamed] at hy'
    rw [hyids, hyids', Option.some.injEq, Generator.named_eq_iff hy hy']
    exact ⟨fun hsame _ => hsame, fun hsame => hsame rfl⟩

theorem ProcessInv.requests_iff {draws' : ℕ → Generator.Draw} {g₁ : Generator}
    (hp : ProcessInv conf r iotype idproc draws g₀ cNurand raws p)
    (hp' : ProcessInv conf r iotype idproc draws' g₁ cNurand raws p') (hnamed : ∀ d, g₁.named d = g₀.named d)
    (hend : ¬ p.loop.GoesOn) (hend' : ¬ p'.loop.GoesOn) : p.requests = p'.requests ↔
      (iotype = .write → ∀ k < r.numberOps / r.nproc, SameBlock g₀ (draws k) (draws' k)) := by
  have hlen := hp.length_of_ended hend
  have hlen' := hp'.length_of_ended hend'
  constructor
  · intro heq hwrite k hk
    have hget := List.getElem?_eq_getElem (hlen ▸ hk : k < p.requests.length)
    exact (hp.request_iff hp' hnamed hget (heq ▸ hget)).2.mp rfl hwrite
  · intro hblocks
    refine List.ext_getElem (hlen.trans hlen'.symm) fun k hk hk' => ?_
    have hiff := (hp.request_iff hp' hnamed (List.getElem?_eq_getElem hk) (List.getElem?_eq_getElem hk')).2
    exact hiff.mpr fun hwrite => hblocks hwrite k (hlen ▸ hk)

/-- What has been drawn in a run names the same block again. -/
theorem ProcessInv.sameBlock_self {k : ℕ} (hp : ProcessInv conf r .write idproc draws g₀ cNurand raws p)
    (hk : k < p.requests.length) : SameBlock g₀ (draws k) (draws k) := by
  obtain ⟨y, hy, -⟩ := hp.ids k _ (List.getElem?_eq_getElem hk)
  exact (Generator.named_eq_iff hy hy).mp rfl

end Run

section TwoRuns

variable {E : Engines} {conf : Conf} {r : RunConf} {seed idproc : ℕ} {file : Option (List Char)} {iotype : IoType}
  {o o' : Outside} {p p' : Process} {g₀ : Generator} {info : DuplicatesInfo}

/-- **Two runs with one seed.**  In a peak test that ends by size, the operations of a process in two runs go to the
same offsets, as far as both runs go; and they are of the same blocks exactly if the draws of `mt19937` name the same.
When both runs have come to their end, the process has made its share of the operations in both. -/
theorem workload_repeats_iff (hr : r.SizePeak)
    (hload : initializeGenerator conf.generator file o.load = .ok (g₀, some info, 1))
    (h : Reaches E conf r seed file iotype idproc o p) (h' : Reaches E conf r seed file iotype idproc o' p') :
    (∀ k q q', p.requests[k]? = some q → p'.requests[k]? = some q' → q.offset = q'.offset ∧
      (q = q' ↔ (iotype = .write → SameBlock g₀
        (E.initializeRandom (o.device (conf.procidR iotype idproc)) k)
        (E.initializeRandom (o'.device (conf.procidR iotype idproc)) k)))) ∧
    (¬ p.loop.GoesOn → ¬ p'.loop.GoesOn →
      p.requests.length = r.numberOps / r.nproc ∧ p'.requests.length = r.numberOps / r.nproc ∧
      (p.requests = p'.requests ↔ (iotype = .write → ∀ k < r.numberOps / r.nproc, SameBlock g₀
        (E.initializeRandom (o.device (conf.procidR iotype idproc)) k)
        (E.initializeRandom (o'.device (conf.procidR iotype idproc)) k))) ∧
      (o.device (conf.procidR iotype idproc) = o'.device (conf.procidR iotype idproc) → p.requests = p'.requests)) := by
  obtain ⟨g₁, info₁, c₁, raws₁, hload₁, hio₁, hp⟩ := processInv_of_reaches hr h
  obtain ⟨g₂, info₂, c₂, raws₂, hload₂, hio₂, hp'⟩ := processInv_of_reaches hr h'
  cases hload₁.symm.trans hload
  cases hio₁.symm.trans hio₂
  have hnamed := named_of_initialize hload hload₂
  refine ⟨fun k q q' hq hq' => hp.request_iff hp' hnamed hq hq', fun hend hend' => ?_⟩
  have hlen := hp.length_of_ended hend
  have hiff := hp.requests_iff hp' hnamed hend hend'
  refine ⟨hlen, hp'.length_of_ended hend', hiff, fun hdevice => hiff.mpr fun hwrite k hk => ?_⟩
  subst hwrite
  rw [← hdevice]
  exact hp.sameBlock_self (hlen ▸ hk)

/-- `std::mt19937` for the seeds `1` and `2`: the first line drawn and its position, and the content. -/
def twoEngines : Engines where
  sfmt _ := []
  mt19937 rd _ := if rd = 1 then ⟨1, 2, 0⟩ else ⟨0, 0, 4000937532⟩

/-- A peak test of two operations, one for each of two processes. -/
def twoOperations : RunConf := ⟨.peak, 0, 2, false, true, 0, 2, 0, 0⟩

/-- `random_device` returns `rd`, and the clock starts at `base`. -/
def outsideAt (rd base : ℕ) : Outside :=
  ⟨plainDraws, fun _ => rd, fun _ => base, fun _ => base, fun _ => [⟨base + 2, base + 9, base + 10, base⟩]⟩

theorem twoOperations_sizePeak : twoOperations.SizePeak := ⟨rfl, rfl, rfl, by decide⟩

/-- The first process of `twoFiles`, from the generator loaded to the end of its loop. -/
def firstProcess (g : Generator) (o : Outside) : Exec Process := do
  let p ← Process.start twoEngines twoFiles twoOperations 7 0 g (o.tim 0) (o.base 0)
  (o.readings 0).foldlM (Process.round twoFiles twoOperations .write 0 (twoEngines.initializeRandom (o.device 0))) p

/-- Two runs of it, by evaluation. -/
theorem reaches_firstProcess {rd rd' base base' : ℕ} {test test' : Process → Bool}
    (h : loadsWith (initializeGenerator twoFiles.generator (some plainDistribution) plainDraws) (fun g _ =>
      okWith (firstProcess g (outsideAt rd base)) test && okWith (firstProcess g (outsideAt rd' base')) test') = true) :
    ∃ g₀ info p p', initializeGenerator twoFiles.generator (some plainDistribution) (outsideAt rd base).load =
        .ok (g₀, some info, 1) ∧
      Reaches twoEngines twoFiles twoOperations 7 (some plainDistribution) .write 0 (outsideAt rd base) p ∧
      Reaches twoEngines twoFiles twoOperations 7 (some plainDistribution) .write 0 (outsideAt rd' base') p' ∧
      test p = true ∧ test' p' = true := by
  obtain ⟨g₀, info, hload, h⟩ := exists_of_loadsWith h
  obtain ⟨hp, hp'⟩ := Bool.and_eq_true_iff.mp h
  obtain ⟨p, hp, htest⟩ := exists_of_okWith hp
  obtain ⟨p', hp', htest'⟩ := exists_of_okWith hp'
  obtain ⟨p₀, hstart, hrun⟩ := bind_eq_ok.mp hp
  obtain ⟨p₀', hstart', hrun'⟩ := bind_eq_ok.mp hp'
  exact ⟨g₀, info, p, p', hload, ⟨g₀, info, g₀, p₀, hload, .refl, hstart, hrun⟩,
    ⟨g₀, info, g₀, p₀', hload, .refl, hstart', hrun'⟩, htest, htest'⟩

/-- One seed, and two values of `random_device`: other blocks. -/
theorem workload_not_repeated : twoOperations.SizePeak ∧ ∃ p p',
    Reaches twoEngines twoFiles twoOperations 7 (some plainDistribution) .write 0 (outsideAt 1 100) p ∧
      Reaches twoEngines twoFiles twoOperations 7 (some plainDistribution) .write 0 (outsideAt 2 100) p' ∧
      ¬ p.loop.GoesOn ∧ ¬ p'.loop.GoesOn ∧ p.requests = [⟨0, some (11, 11)⟩] ∧
      p'.requests = [⟨0, some (1, 4000937544)⟩] ∧ p.requests ≠ p'.requests := by
  obtain ⟨-, -, p, p', -, hp, hp', h, h'⟩ := @reaches_firstProcess 1 2 100 100
    (fun p => ¬ p.loop.GoesOn ∧ p.requests = [⟨0, some (11, 11)⟩])
    (fun p => ¬ p.loop.GoesOn ∧ p.requests = [⟨0, some (1, 4000937544)⟩]) (by decide +kernel)
  obtain ⟨hend, hreq⟩ := of_decide_eq_true h
  obtain ⟨hend', hreq'⟩ := of_decide_eq_true h'
  exact ⟨twoOperations_sizePeak, p, p', hp, hp', hend, hend', hreq, hreq', by rw [hreq, hreq']; decide⟩

/-- One value of `random_device`, and two clocks: one workload. -/
theorem workload_repeated_twoFiles : ∃ p p',
    Reaches twoEngines twoFiles twoOperations 7 (some plainDistribution) .write 0 (outsideAt 1 100) p ∧
      Reaches twoEngines twoFiles twoOperations 7 (some plainDistribution) .write 0 (outsideAt 1 5000) p' ∧
      p.requests.length = 1 ∧ p.requests = p'.requests := by
  obtain ⟨g₀, info, p, p', hload, hp, hp', h, h'⟩ := @reaches_firstProcess 1 1 100 5000
    (fun p => ¬ p.loop.GoesOn) (fun p => ¬ p.loop.GoesOn) (by decide +kernel)
  obtain ⟨hlen, -, -, hsame⟩ := (workload_repeats_iff twoOperations_sizePeak hload hp hp').2 (of_decide_eq_true h)
    (of_decide_eq_true h')
  exact ⟨p, p', hp, hp', hlen, hsame rfl⟩

end TwoRuns

end Dedisbench
