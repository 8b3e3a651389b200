import Dedisbench.Generator.BlockModel
import Dedisbench.Generator.Estimate
import Mathlib.Order.Interval.Finset.Nat

/-!
# The lines of a distribution file

What `initialize` takes from a text line is all set, or it does not come back: `LineRead` is a record with the number of
copies, the number of blocks and the percentage of its own line, and with as many shares as there are further fields.
Nothing asks for ten of them.  `readsOrRejects_iff` says which files are either read into complete lines or rejected.
-/

namespace Dedisbench

open ExceptRun ByteMem Text

/-! ### One line -/

/-- A line and its weight are read from a text line, for `n` blocks to generate. -/
def LineRead (n : ℕ) (line : List Char) (l : Linha Float) (w : Float) : Prop :=
  ∃ token percentage rest copies, getlines ' ' line = token :: percentage :: rest ∧ stoi token = .ok copies ∧
    l.nrCopies = ofInt32 copies ∧ stof percentage = .ok w ∧ lineBlocks n l.nrCopies w = .ok l.nrBlocks ∧
    rest.mapM stof = .ok l.compression

/-- A text line with all that is read of it: two numbers and ten shares; `k` is its number of blocks. -/
def LineComplete (n : ℕ) (line : List Char) (k : ℕ) : Prop :=
  ∃ l w, LineRead n line l w ∧ 10 ≤ l.compression.length ∧ l.nrBlocks = k

section Lines

variable {n k : ℕ} {line : List Char} {lines : List (List Char)} {l l' : Linha Float} {w w' : Float}
  {s s' : ParseState}

/-- What is read of a text line is in the line, except for the id it starts at. -/
theorem LineRead.unique (h : LineRead n line l w) (h' : LineRead n line l' w') :
    l.nrBlocks = l'.nrBlocks ∧ l.compression = l'.compression := by
  obtain ⟨token, percentage, rest, copies, hline, hcopies, hnr, hw, hblocks, hshares⟩ := h
  obtain ⟨token', percentage', rest', copies', hline', hcopies', hnr', hw', hblocks', hshares'⟩ := h'
  rw [hline, List.cons.injEq, List.cons.injEq] at hline'
  obtain ⟨rfl, rfl, rfl⟩ := hline'
  rw [hcopies, Except.ok.injEq] at hcopies'
  rw [hw, Except.ok.injEq] at hw'
  rw [hshares, Except.ok.injEq] at hshares'
  rw [hnr, hcopies', ← hnr', hw', hblocks', Except.ok.injEq] at hblocks
  exact ⟨hblocks.symm, hshares'⟩

theorem LineRead.pos (h : LineRead n line l w) : 1 ≤ l.nrBlocks := by
  obtain ⟨-, -, -, -, -, -, -, -, hblocks, -⟩ := h
  exact (lineBlocks_eq_ok hblocks).1

/-- A round of the reading loop comes to its end with a line that is read, or not at all. -/
theorem readLine_lineRead (h : readLine n s line = .ok s') : ∃ l w, LineRead n line l w ∧
    s'.linhas = s.linhas ++ [l] ∧ s'.weights = s.weights ++ [w] := by
  unfold readLine at h
  split at h
  · cases h
  · simp only [bind_eq_ok] at h
    obtain ⟨_, _, h⟩ := h
    cases h
  next token percentage rest hline =>
    simp only [bind_eq_ok] at h
    obtain ⟨copies, hcopies, w, hw, nrBlocks, hblocks, compression, hshares, h⟩ := h
    simp only [Except.ok.injEq] at h
    exact ⟨⟨ofInt32 copies, nrBlocks, s.nrBaseAux, compression⟩, w,
      ⟨token, percentage, rest, copies, hline, hcopies, rfl, hw, hblocks, hshares⟩, h ▸ rfl, h ▸ rfl⟩

theorem readLine_ok (h : LineRead n line l w) (s : ParseState) : ∃ s', readLine n s line = .ok s' := by
  obtain ⟨token, percentage, rest, copies, hline, hcopies, hnr, hw, hblocks, hshares⟩ := h
  rw [hnr] at hblocks
  simp only [readLine, hline, hcopies, hw, hblocks, hshares, bind_ok]
  exact ⟨_, rfl⟩

/-- **What the reading loop reads**, line by line. -/
theorem readLoop_lineRead : ∀ {s : ParseState}, lines.foldlM (readLine n) s = .ok s' →
    ∃ ps : List (Linha Float × Float), List.Forall₂ (fun line p => LineRead n line p.1 p.2) lines ps ∧
      s'.linhas = s.linhas ++ ps.map Prod.fst ∧ s'.weights = s.weights ++ ps.map Prod.snd := by
  induction lines with
  | nil =>
    intro s h
    obtain rfl := foldlM_nil_eq_ok.mp h
    exact ⟨[], .nil, by simp, by simp⟩
  | cons line lines ih =>
    intro s h
    obtain ⟨t, ht, h⟩ := foldlM_cons_eq_ok.mp h
    obtain ⟨l, w, hread, hlinhas, hweights⟩ := readLine_lineRead ht
    obtain ⟨ps, hps, hlinhas', hweights'⟩ := ih h
    exact ⟨(l, w) :: ps, .cons hread hps, by simp [hlinhas', hlinhas], by simp [hweights', hweights]⟩

/-- The lines that are complete are those that are read with ten shares. -/
theorem lineComplete_iff (h : LineRead n line l w) :
    LineComplete n line k ↔ 10 ≤ l.compression.length ∧ l.nrBlocks = k := by
  constructor
  · rintro ⟨l', w', h', hlen, hk⟩
    obtain ⟨hblocks, hshares⟩ := h.unique h'
    rw [hblocks, hshares]
    exact ⟨hlen, hk⟩
  · rintro ⟨hlen, hk⟩
    exact ⟨l, w, h, hlen, hk⟩

end Lines

/-! ### The ids of the lines -/

/-- Lines that do not share ids have as many blocks as there are ids. -/
theorem sum_nrBlocks_le {F : Type} {ls : List (Linha F)} (h : ls.Pairwise fun l l' => Disjoint l.ids l'.ids) :
    ∀ ids : Finset ℕ, (∀ l ∈ ls, l.ids ⊆ ids) → (ls.map Linha.nrBlocks).sum ≤ ids.card := by
  induction h with
  | nil => simp
  | @cons l ls hl _ ih =>
    intro ids hids
    have hown : Finset.Ioc l.nrBase (l.nrBase + l.nrBlocks) ⊆ ids := by
      intro id hid
      exact hids l List.mem_cons_self (by simpa [Linha.ids] using hid)
    have hrest := ih (ids \ Finset.Ioc l.nrBase (l.nrBase + l.nrBlocks)) fun l' hl' id hid => by
      have hnot := Set.disjoint_right.mp (hl l' hl') hid
      simp only [Linha.ids, Set.mem_Ioc] at hnot
      simp only [Finset.coe_sdiff, Set.mem_sdiff, Finset.mem_coe, Finset.mem_Ioc]
      exact ⟨hids l' (List.mem_cons_of_mem _ hl') hid, hnot⟩
    have hcard := Finset.card_sdiff_add_card_eq_card hown
    rw [Nat.card_Ioc] at hcard
    rw [List.map_cons, List.sum_cons]
    omega

theorem IdsPartitioned.sum_le {g : Generator} (h : IdsPartitioned g) : g.blockCounts.sum ≤ g.totalUniqueBlocks := by
  refine (sum_nrBlocks_le h.disjoint (Finset.Icc 1 g.totalUniqueBlocks) fun l hl id hid => ?_).trans ?_
  · have hin : id ∈ ⋃ l ∈ g.linhas, l.ids := by
      simp only [Set.mem_iUnion]
      exact ⟨l, hl, hid⟩
    rw [h.cover] at hin
    simpa using hin
  · rw [Nat.card_Icc, Nat.add_sub_cancel]

/-! ### Loading -/

theorem modelCompressions_ne_none {bs compression : ℕ} {seed : Float} {fresh : Mem} (hbs : 4096 ≤ bs)
    (hc : compression ∈ modelCompressions) : blockModel bs compression seed fresh ≠ .ok none := by
  rw [blockModel_eq (modelCompressions_bounds hc) hbs]
  split <;> simp

/-- The models are built if their size is an `int`. -/
theorem buildModels_ok_iff {bs : ℕ} (hbs : 4096 ≤ bs) (d : LoadDraws) :
    (∃ modelos, buildModels bs d = .ok (some modelos)) ↔ bs / 4096 * 4096 < 2 ^ 31 := by
  constructor
  · rintro ⟨modelos, h⟩
    have hmodels := collectM_eq_some h
    obtain ⟨m, -, hm⟩ := exists_of_mem_right hmodels.flip 0 (by decide)
    obtain ⟨b, -, hb⟩ := exists_of_mem_right (collectM_eq_some hm).flip 5 (by decide)
    obtain ⟨hsize, hlt⟩ := blockModel_eq_some hb
    omega
  · intro hlt
    exact collectM_ok fun v _ => collectM_ok fun compression hc =>
      ⟨_, by rw [blockModel_eq (modelCompressions_bounds hc) hbs, if_neg (not_le.mpr hlt)]⟩

section Loading

variable {bs n pa pc : ℕ} {text : List Char} {d : LoadDraws} {g : Generator} {info : Option DuplicatesInfo} {res : ℤ}

/-- A file that is not rejected at once is not rejected later. -/
theorem initialize_res (hbs : 4096 ≤ bs) (hpc : 1 ≤ pc ∧ pc ≤ 100)
    (h : initializeGenerator (.mk' bs n pa pc) (some text) d = .ok (g, info, res)) : res = 1 := by
  unfold initializeGenerator at h
  split at h
  next hlt => exact absurd hlt (not_lt.mpr hbs)
  split at h
  next hnot => exact absurd hpc hnot
  simp only [bind_eq_ok] at h
  obtain ⟨s, -, interval, -, ⟨g', r⟩, hload, h⟩ := h
  rw [loadModels, bind_eq_ok] at hload
  obtain ⟨o, hm, hload⟩ := hload
  cases o with
  | none =>
    exact absurd hm (collectM_ne_none fun v _ => collectM_ne_none fun c hc => modelCompressions_ne_none hbs hc)
  | some modelos =>
    simp only [bind_eq_ok] at hload
    obtain ⟨x, -, hload⟩ := hload
    cases hload
    cases h
    rfl

/-- **When a file is loaded.** -/
theorem initialize_ok_iff (hbs : 4096 ≤ bs) (hpc : 1 ≤ pc ∧ pc ≤ 100) :
    (∃ g info, initializeGenerator (.mk' bs n pa pc) (some text) d = .ok (g, info, 1)) ↔
      ∃ s, readLines n text = .ok s ∧
        (∃ interval, getMediaInter ((Generator.mk' bs n pa pc).withLines s) pa d.sample = .ok interval) ∧
        bs / 4096 * 4096 < 2 ^ 31 := by
  constructor
  · rintro ⟨g, info, h⟩
    obtain ⟨text', s, interval, modelos, x, htext, -, hs, hinterval, hm, -⟩ := initialize_eq_ok h
    cases htext
    exact ⟨s, hs, ⟨interval, hinterval⟩, (buildModels_ok_iff hbs d).mp ⟨modelos, hm⟩⟩
  · rintro ⟨s, hs, ⟨interval, hinterval⟩, hsize⟩
    obtain ⟨modelos, hm⟩ := (buildModels_ok_iff hbs d).mpr hsize
    have htotal : s.totalUniqueBlocks < 2 ^ 32 := (readLines_parseOk hs).total ▸ u32_lt _
    obtain ⟨x, -, hx⟩ := exists_firstShare hpc htotal
    simp only [Generator.withLines, Generator.mk'] at hinterval
    simp only [initializeGenerator, Generator.mk', if_neg (not_lt.mpr hbs), if_neg (not_not.mpr hpc), hs, bind_ok,
      hinterval, loadModels, hm, hx]
    exact ⟨_, _, rfl⟩

end Loading

/-! ### Which files are read or rejected -/

/-- A generator with complete lines: each of them, and its weight, comes from its own text line, with ten shares and at
least one block, and the lines partition the ids. -/
structure LinesComplete (n : ℕ) (text : List Char) (g : Generator) : Prop where
  weights : g.weights.length = g.linhas.length
  lines : List.Forall₂ (fun line p => LineRead n line p.1 p.2) (getlines '\n' text) (g.linhas.zip g.weights)
  shares : ∀ l ∈ g.linhas, 10 ≤ l.compression.length ∧ 1 ≤ l.nrBlocks
  ids : IdsPartitioned g

/-- `initialize` returns `1` with complete lines, or `-1`. -/
def ReadsOrRejects (bs n pa pc : ℕ) (file : Option (List Char)) (d : LoadDraws) : Prop :=
  ∃ g info res, initializeGenerator (.mk' bs n pa pc) file d = .ok (g, info, res) ∧
    ((res = 1 ∧ ∃ text, file = some text ∧ LinesComplete n text g) ∨ res = -1)

/-- What `initialize` checks before it reads. -/
def Rejected (bs pc : ℕ) (file : Option (List Char)) : Prop :=
  bs < 4096 ∨ ¬(1 ≤ pc ∧ pc ≤ 100) ∨ file = none

/-- A text of complete lines with these numbers of blocks, whose sum and the sizes computed from it fit their types; if
ids are to be drawn for the estimate, there are two of them. -/
structure Loadable (bs n pa : ℕ) (text : List Char) (counts : List ℕ) : Prop where
  lines : List.Forall₂ (LineComplete n) (getlines '\n' text) counts
  total : counts.sum < 2 ^ 32
  estimate : 0 < pa ∧ pa < 100 → 200 ≤ u32 (counts.sum * pa) ∧ counts.sum < 2 ^ 31
  model : bs / 4096 * 4096 < 2 ^ 31

section Files

variable {bs n pa pc : ℕ} {text : List Char} {d : LoadDraws} {s : ParseState}

/-- The numbers of blocks of complete lines, as they are read. -/
theorem counts_of_complete {lines : List (List Char)} {ps : List (Linha Float × Float)} {counts : List ℕ}
    (hps : List.Forall₂ (fun line p => LineRead n line p.1 p.2) lines ps) :
    List.Forall₂ (LineComplete n) lines counts ↔
      (∀ p ∈ ps, 10 ≤ p.1.compression.length) ∧ ps.map (fun p => p.1.nrBlocks) = counts := by
  induction hps generalizing counts with
  | nil =>
    rw [List.forall₂_nil_left_iff]
    simp [eq_comm]
  | @cons line p lines ps hp _ ih =>
    cases counts with
    | nil => simp
    | cons k counts =>
      rw [List.forall₂_cons, ih, lineComplete_iff hp]
      simp only [List.mem_cons, forall_eq_or_imp, List.map_cons, List.cons.injEq]
      exact and_and_and_comm

/-- With ten shares the estimate comes back as long as there is a pair. -/
theorem getMediaInter_complete (hs : readLines n text = .ok s) (hten : ∀ l ∈ s.linhas, 10 ≤ l.compression.length)
    (raw : ℕ → ℕ) :
    (∃ interval, getMediaInter ((Generator.mk' bs n pa pc).withLines s) pa raw = .ok interval) ↔
      (0 < pa ∧ pa < 100 → 200 ≤ u32 (s.totalUniqueBlocks * pa) ∧ s.totalUniqueBlocks < 2 ^ 31) := by
  have hparse := readLines_parseOk hs
  by_cases hpa : 0 < pa ∧ pa < 100
  · have hiff := (getMediaInter_ok_iff (g := (Generator.mk' bs n pa pc).withLines s) hparse.lines hparse.total
      (show 1 ≤ pa ∧ pa ≤ 99 by omega) raw).1
    rw [hiff]
    constructor
    · rintro ⟨h200, hlt, -⟩ -
      exact ⟨h200, hlt⟩
    · intro h
      obtain ⟨h200, hlt⟩ := h hpa
      refine ⟨h200, hlt, fun i _ => ?_⟩
      have hpos : 1 ≤ s.totalUniqueBlocks := by
        by_contra hzero
        rw [Nat.lt_one_iff.mp (not_le.mp hzero), Nat.zero_mul] at h200
        exact absurd h200 (by decide)
      have hmod : raw i % s.totalUniqueBlocks < s.totalUniqueBlocks := Nat.mod_lt _ hpos
      have hid : 1 ≤ 1 + raw i % s.totalUniqueBlocks ∧ 1 + raw i % s.totalUniqueBlocks ≤ s.totalUniqueBlocks := by omega
      obtain ⟨l, hl, hhas⟩ := exists_hasId hparse.lines hparse.total
        ((toInt32_pos_iff (by omega)).mpr ⟨hpos, hlt⟩) hid
      obtain ⟨l', hl'⟩ : ∃ l', (s.linhas.find? fun l => l.hasId (1 + raw i % s.totalUniqueBlocks : ℕ)) = some l' := by
        rw [← Option.isSome_iff_exists, List.find?_isSome]
        exact ⟨l, hl, hhas⟩
      exact ⟨l', hl', .inl (hten l' (List.mem_of_find?_eq_some hl'))⟩
  · rw [getMediaInter, if_neg hpa]
    exact ⟨fun _ h => absurd h hpa, fun _ => ⟨_, rfl⟩⟩

/-- The lines of a text that is read. -/
theorem readLines_lineRead (hs : readLines n text = .ok s) : ∃ ps : List (Linha Float × Float),
    List.Forall₂ (fun line p => LineRead n line p.1 p.2) (getlines '\n' text) ps ∧
      s.linhas = ps.map Prod.fst ∧ s.weights = ps.map Prod.snd := by
  obtain ⟨ps, hps, hl, hw⟩ := readLoop_lineRead hs
  exact ⟨ps, hps, hl, hw⟩

/-- A text of complete lines is read. -/
theorem exists_readLines {counts : List ℕ} (hlines : List.Forall₂ (LineComplete n) (getlines '\n' text) counts) :
    ∃ s, readLines n text = .ok s := by
  obtain ⟨s, hs, -⟩ := foldlM_ok (f := readLine n) (P := fun _ => True) (l := getlines '\n' text)
    (fun s line hline _ => by
      obtain ⟨k, -, l, w, hread, -⟩ := exists_of_mem_right hlines.flip line hline
      obtain ⟨s', hs'⟩ := readLine_ok hread s
      exact ⟨s', hs', trivial⟩) (s := ⟨[], [], 0, 0, 0⟩) trivial
  exact ⟨s, hs⟩

/-- What a generator keeps of the lines it has read. -/
theorem read_of_initialize {g : Generator} {info : Option DuplicatesInfo}
    (hrun : initializeGenerator (.mk' bs n pa pc) (some text) d = .ok (g, info, 1)) (hs : readLines n text = .ok s) :
    g.linhas = s.linhas ∧ g.weights = s.weights ∧ g.totalUniqueBlocks = s.totalUniqueBlocks := by
  obtain ⟨text', s', interval, modelos, x, htext, -, hs', -, -, -, hg, -⟩ := initialize_eq_ok hrun
  cases htext
  rw [hs, Except.ok.injEq] at hs'
  subst hs'
  rw [hg]
  exact ⟨rfl, rfl, rfl⟩

/-- Lines that partition the ids have numbers of blocks that do not wrap. -/
theorem LinesComplete.loadable {g : Generator} {info : Option DuplicatesInfo} (hbs : 4096 ≤ bs)
    (hpc : 1 ≤ pc ∧ pc ≤ 100) (hrun : initializeGenerator (.mk' bs n pa pc) (some text) d = .ok (g, info, 1))
    (hcomplete : LinesComplete n text g) : Loadable bs n pa text g.blockCounts := by
  obtain ⟨s, hs, hinterval, hsize⟩ := (initialize_ok_iff hbs hpc).mp ⟨g, info, hrun⟩
  obtain ⟨hlinhas, -, htotal⟩ := read_of_initialize hrun hs
  obtain ⟨ps, hps, hl, -⟩ := readLines_lineRead hs
  have hten : ∀ l ∈ s.linhas, 10 ≤ l.compression.length := fun l hmem => (hcomplete.shares l (hlinhas ▸ hmem)).1
  have hmap : ps.map (fun p => p.1.nrBlocks) = g.blockCounts := by
    rw [Generator.blockCounts, hlinhas, hl, List.map_map]
    rfl
  have htotal' : s.totalUniqueBlocks = u32 g.blockCounts.sum := by
    rw [(readLines_parseOk hs).total, Generator.blockCounts, hlinhas]
  have hsum : g.blockCounts.sum < 2 ^ 32 := by
    have hle := hcomplete.ids.sum_le
    have hlt := u32_lt g.blockCounts.sum
    omega
  have hcount : s.totalUniqueBlocks = g.blockCounts.sum := by rw [htotal', u32_of_lt hsum]
  refine ⟨(counts_of_complete hps).mpr ⟨fun p hp => ?_, hmap⟩, hsum, ?_, hsize⟩
  · exact hten p.1 (hl ▸ List.mem_map_of_mem hp)
  · exact hcount ▸ (getMediaInter_complete hs hten d.sample).mp hinterval

/-- A text of complete lines is loaded, and its lines partition the ids. -/
theorem Loadable.exists_complete {counts : List ℕ} (hbs : 4096 ≤ bs) (hpc : 1 ≤ pc ∧ pc ≤ 100)
    (h : Loadable bs n pa text counts) :
    ∃ g info, initializeGenerator (.mk' bs n pa pc) (some text) d = .ok (g, info, 1) ∧ LinesComplete n text g := by
  obtain ⟨hlines, htotal, hestimate, hsize⟩ := h
  obtain ⟨s, hs⟩ := exists_readLines hlines
  obtain ⟨ps, hps, hl, hw⟩ := readLines_lineRead hs
  obtain ⟨hten, hcounts⟩ := (counts_of_complete hps).mp hlines
  have hmap : s.linhas.map Linha.nrBlocks = counts := by
    rw [hl, List.map_map, ← hcounts]
    rfl
  have hparse := readLines_parseOk hs
  have hcount : s.totalUniqueBlocks = counts.sum := by rw [hparse.total, hmap, u32_of_lt htotal]
  have hshares : ∀ l ∈ s.linhas, 10 ≤ l.compression.length := by
    intro l hmem
    rw [hl] at hmem
    obtain ⟨p, hp, rfl⟩ := List.mem_map.mp hmem
    exact hten p hp
  have hinter : ∃ interval, getMediaInter ((Generator.mk' bs n pa pc).withLines s) pa d.sample = .ok interval :=
    (getMediaInter_complete hs hshares d.sample).mpr (hcount ▸ hestimate)
  obtain ⟨g, info, hrun⟩ := (initialize_ok_iff (d := d) hbs hpc).mpr ⟨s, hs, hinter, hsize⟩
  obtain ⟨hlinhas, hweights, -⟩ := read_of_initialize hrun hs
  have hzip : g.linhas.zip g.weights = ps := by
    rw [hlinhas, hweights]
    simp only [hl, hw, List.zip_map', List.map_id']
  refine ⟨g, info, hrun, ?_, hzip ▸ hps, ?_, ?_⟩
  · rw [hlinhas, hweights]
    exact hparse.weights
  · rw [hlinhas]
    exact fun l hmem => ⟨hshares l hmem, hparse.lines.pos l hmem⟩
  · obtain ⟨_, _, _, _, _, -, -, -, -, -, -, -, hinfo⟩ := initialize_eq_ok hrun
    rw [hinfo] at hrun
    refine ( loaded_of_initialize hrun).1.idsPartitioned ?_
    rw [Generator.blockCounts, hlinhas, hmap]
    exact htotal

/-- **Which files are read into complete lines or rejected**: those that are rejected at once, and those of complete
lines.  With any other file `initialize` does not come back, or it returns `1` with fewer than ten shares in a line or
with lines that share ids. -/
theorem readsOrRejects_iff (file : Option (List Char)) :
    ReadsOrRejects bs n pa pc file d ↔
      Rejected bs pc file ∨ ∃ text counts, file = some text ∧ Loadable bs n pa text counts := by
  by_cases hrej : Rejected bs pc file
  · refine ⟨fun _ => .inl hrej, fun _ => ⟨.mk' bs n pa pc, none, -1, ?_, .inr rfl⟩⟩
    unfold initializeGenerator
    split
    · rfl
    next hbs =>
      split
      · rfl
      next hpc =>
        rcases hrej with hlt | hnot | rfl
        · exact absurd hlt hbs
        · exact absurd hnot hpc
        · rfl
  · simp only [Rejected, not_or, not_lt, not_not] at hrej
    obtain ⟨hbs, hpc, hfile⟩ := hrej
    obtain ⟨text, rfl⟩ := Option.ne_none_iff_exists'.mp hfile
    constructor
    · rintro ⟨g, info, res, hrun, ⟨rfl, text', htext, hcomplete⟩ | hneg⟩
      · cases htext
        exact .inr ⟨text, g.blockCounts, rfl, hcomplete.loadable hbs hpc hrun⟩
      · have hone := initialize_res hbs hpc hrun
        omega
    · rintro (hrej | ⟨text', counts, htext, hload⟩)
      · rcases hrej with hlt | hnot | hnone
        · omega
        · exact absurd hpc hnot
        · cases hnone
      · cases htext
        obtain ⟨g, info, hrun, hcomplete⟩ := hload.exists_complete (d := d) hbs hpc
        exact ⟨g, info, 1, hrun, .inl ⟨rfl, text, rfl, hcomplete⟩⟩

/-- A line with one share is read, and `initialize` returns `1`; a blank line makes it use values that are not set. -/
theorem not_readsOrRejects :
    (∃ g info, initializeGenerator (.mk' 4096 16 25 25) (some "0 100 100\n".toList) plainDraws = .ok (g, some info, 1) ∧
      ∃ l ∈ g.linhas, l.compression.length = 1) ∧
    ¬ ReadsOrRejects 4096 16 25 25 (some "0 100 100\n".toList) plainDraws ∧
    initializeGenerator (.mk' 4096 16 25 25) (some "\n".toList) plainDraws = .error .undefined ∧
    ¬ ReadsOrRejects 4096 16 25 25 (some "\n".toList) plainDraws := by
  obtain ⟨g, info, hshort, htest⟩ := exists_of_loadsWith (x := initializeGenerator (.mk' 4096 16 25 25)
    (some "0 100 100\n".toList) plainDraws) (T := fun g _ => g.linhas.any fun l => l.compression.length = 1)
    (by decide +kernel)
  obtain ⟨l, hl, hlen⟩ := List.any_eq_true.mp htest
  have hlen : l.compression.length = 1 := of_decide_eq_true hlen
  have hblank : initializeGenerator (.mk' 4096 16 25 25) (some "\n".toList) plainDraws = .error .undefined :=
    eq_error_of_failsWith (by decide +kernel)
  refine ⟨⟨g, info, hshort, l, hl, hlen⟩, ?_, hblank, ?_⟩
  · rintro ⟨g', info', res, hrun, h⟩
    rw [hshort, Except.ok.injEq, Prod.mk.injEq, Prod.mk.injEq] at hrun
    obtain ⟨rfl, -, rfl⟩ := hrun
    rcases h with ⟨-, text, -, hcomplete⟩ | hneg
    · have hten := (hcomplete.shares l hl).1
      omega
    · omega
  · rintro ⟨g', info', res, hrun, -⟩
    rw [hblank] at hrun
    cases hrun

end Files

end Dedisbench
