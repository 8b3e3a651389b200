import Dedisbench.Bench.Run
import Dedisbench.Lib.Interleave

/-!
# The writing processes, statement by statement

A write of `process_run` is not one step: the block and its place are chosen, the counter of the block is loaded,
stored and tested, the access is counted, the block is written, and the fields of its tracker entry are assigned one
after the other; other processes run in between.  `microRun` is the run of these statements in any order in which the
processes come to them.

Every statement has one effect on what is shared, on the blocks of its own process (`Statement.footprint`), so that
statements of different processes commute (`commutes`), except on the counters of the blocks: an increment is a load and
a store, and two of them can come to the same value.
-/

namespace Dedisbench

open ByteMem ExceptRun Interleave

variable {conf : Conf} {info : DuplicatesInfo}

/-! ### Statements -/

/-- What a process has chosen for the write it is at: `buf`, `info_write` and `iooffset`. -/
structure Pending where
  buf : ModelRef
  infoWrite : BlockInfo
  iooffset : ℕ

/-- A writing process in the middle of its loop, with the value it has loaded for an increment. -/
structure Worker where
  proc : Proc
  pending : Option Pending
  loaded : Option ℕ

/-- The fields of an entry of the tracker. -/
inductive TrackField where
  | contId
  | procId
  | blockId
  | compressionIndex
  | flagUniqueBlock
  deriving DecidableEq

/-- The assignment of one field. -/
def TrackField.assign (f : TrackField) (infoWrite e : BlockInfo) : BlockInfo :=
  match f with
  | .contId => { e with contId := infoWrite.contId }
  | .procId => { e with procId := infoWrite.procId }
  | .blockId => { e with blockId := infoWrite.blockId }
  | .compressionIndex => { e with compressionIndex := infoWrite.compressionIndex }
  | .flagUniqueBlock => { e with flagUniqueBlock := infoWrite.flagUniqueBlock }

/-- The statements of a write. -/
inductive Statement where
  | request (draw : Generator.Draw) (raws : List ℕ)
  | load
  | store
  | test
  | access
  | pwrite
  | track (f : TrackField)
  | finish (measured : Bool)

/-- A statement and the process that comes to it. -/
structure Micro where
  idproc : ℕ
  statement : Statement

/-- The state between two statements. -/
structure Fine where
  files : FileId → File
  shared : Shared
  gen : Generator
  workers : ℕ → Worker

/-- The counter of a block, if blocks are counted: of a block with copies, that of its id, and else `zerodups`. -/
def counterOf (conf : Conf) (info : DuplicatesInfo) (infoWrite : BlockInfo) : Exec (Option ℕ) :=
  if conf.distout = false then .ok none
  else if infoWrite.flagUniqueBlock = 0 then
    if statisticsIndex info infoWrite < 0 then .error .undefined
    else .ok (some (statisticsIndex info infoWrite).toNat)
  else .ok (some info.duplicatedBlocks)

/-- What is shared by the processes. -/
structure Common where
  files : FileId → File
  shared : Shared

/-- What a statement does to the process that comes to it and to what is shared.  An increment stores the successor of
what it has loaded, or, if it is `atomic`, of what is there. -/
def Statement.run (atomic : Bool) (conf : Conf) (info : DuplicatesInfo) (idproc : ℕ) (st : Statement) (k : Worker)
    (m : Common) : Exec (Worker × Common) :=
  match st, k.pending with
  | .request draw raws, none => do
    -- `write_request`
    let (gen, buf, infoWrite) ← getWritecontent k.proc.gen idproc draw
    let (iooffset, _) ← getIoposition conf k.proc.totOps k.proc.cNurand idproc raws
    .ok ({ k with proc := { k.proc with gen }, pending := some ⟨buf, infoWrite, iooffset⟩ }, m)
  | .load, some d => do
    match ← counterOf conf info d.infoWrite with
    | none => .ok (k, m)
    | some i => match m.shared.statistics[i]? with
      | none => .error .undefined
      | some n => .ok ({ k with loaded := some n }, m)
  | .store, some d => do
    match ← counterOf conf info d.infoWrite with
    | none => .ok (k, m)
    | some i => match k.loaded, m.shared.statistics[i]? with
      | some n, some v =>
        let statistics := m.shared.statistics.set i (u64 ((if atomic then v else n) + 1))
        .ok ({ k with loaded := none }, { m with shared := { m.shared with statistics } })
      | _, _ => .error .undefined
  | .test, some d => do
    match ← counterOf conf info d.infoWrite with
    | none => .ok (k, m)
    | some i =>
      if d.infoWrite.flagUniqueBlock = 0 then
        match m.shared.statistics[i]? with
        | none => .error .undefined
        | some n =>
          if 1 < n then .ok ({ k with proc := { k.proc with dupl := u64 (k.proc.dupl + 1) } }, m)
          else .ok ({ k with proc := { k.proc with uni := u64 (k.proc.uni + 1) } }, m)
      else .ok ({ k with proc := { k.proc with uni := u64 (k.proc.uni + 1) } }, m)
  | .access, some d => do
    let acessesarray ← countAccess k.proc.acessesarray (d.iooffset / conf.blockSize)
    .ok ({ k with proc := { k.proc with acessesarray } }, m)
  | .pwrite, some d => do
    let content ← k.proc.gen.contentAt d.buf conf.blockSize
    let fd := conf.fileOf idproc
    .ok (k, { m with files := Function.update m.files fd ((m.files fd).pwrite content d.iooffset) })
  | .track f, some d =>
    let j := conf.pos idproc * conf.totblocks + d.iooffset / conf.blockSize
    if conf.integrity = 0 then .ok (k, m)
    else if j < m.shared.contentMap.length then
      .ok (k, { m with shared := { m.shared with contentMap := m.shared.contentMap.modify j (f.assign d.infoWrite) } })
    else .error .undefined
  | .finish measured, some _ =>
    .ok ({ k with
      proc := { k.proc with totOps := if measured then u64 (k.proc.totOps + 1) else k.proc.totOps }
      pending := none
      loaded := none }, m)
  | _, _ => .error .undefined

/-- A process comes to a statement. -/
def microStep (atomic : Bool) (conf : Conf) (info : DuplicatesInfo) (s : Fine) (a : Micro) : Exec Fine := do
  let (k, m) ← a.statement.run atomic conf info a.idproc (s.workers a.idproc) ⟨s.files, s.shared⟩
  .ok { s with files := m.files, shared := m.shared, workers := Function.update s.workers a.idproc k }

/-- The statements of a run, in the order in which they happen. -/
def microRun (atomic : Bool) (conf : Conf) (info : DuplicatesInfo) (steps : List Micro) (s : Fine) : Exec Fine :=
  steps.foldlM (microStep atomic conf info) s

/-- The statements of one write. -/
def WriteStep.statements (w : WriteStep) : List Micro :=
  [.request w.draw w.raws, .load, .store, .test, .access, .pwrite, .track .contId, .track .procId, .track .blockId,
    .track .compressionIndex, .track .flagUniqueBlock, .finish w.measured].map (Micro.mk w.idproc)

/-- The state of a run between writes. -/
def Sys.fine (s : Sys) : Fine := ⟨s.files, s.shared, s.gen, fun p => ⟨s.procs p, none, none⟩⟩

/-! ### What a statement touches -/

/-- What a statement does to the files, the tracker and the counters. -/
inductive Effect where
  | none
  | pwrite (fd : FileId) (content : List UInt8) (off : ℕ)
  | track (j : ℕ) (f : BlockInfo → BlockInfo)
  | count (i : ℕ)

def Effect.files (E : Effect) (files : FileId → File) : FileId → File :=
  match E with
  | .pwrite fd content off => Function.update files fd ((files fd).pwrite content off)
  | _ => files

def Effect.contentMap (E : Effect) (l : List BlockInfo) : List BlockInfo :=
  match E with
  | .track j f => l.modify j f
  | _ => l

def Effect.statistics (E : Effect) (l : List ℕ) : List ℕ :=
  match E with
  | .count i => l.modify i fun n => u64 (n + 1)
  | _ => l

/-- A process writes and tracks blocks of its region. -/
inductive Effect.Of (conf : Conf) (p : ℕ) : Effect → Prop
  | none : Effect.Of conf p .none
  | pwrite {content : List UInt8} {b : ℕ} (hb : b < conf.region) (hlen : content.length = conf.blockSize) :
    Effect.Of conf p (.pwrite (conf.fileOf p) content ((conf.regionStart p + b) * conf.blockSize))
  | track {b : ℕ} (f : BlockInfo → BlockInfo) (hb : b < conf.region) :
    Effect.Of conf p (.track (conf.pos p * conf.totblocks + (conf.regionStart p + b)) f)
  | count (i : ℕ) : Effect.Of conf p (.count i)

section Commute

variable {p p' : ℕ} {E E' : Effect}

theorem write_comm {m src src' : Mem} {off len off' len' : ℕ} (h : off + len ≤ off' ∨ off' + len' ≤ off) :
    write (write m off len src) off' len' src' = write (write m off' len' src') off len src := by
  funext i
  unfold write
  by_cases hi : off ≤ i ∧ i < off + len
  · rw [if_neg (by omega), if_pos hi, if_pos hi]
  · rw [if_neg hi, if_neg hi]

theorem File.pwrite_comm (f : File) {c c' : List UInt8} {off off' : ℕ}
    (h : off + c.length ≤ off' ∨ off' + c'.length ≤ off) :
    (f.pwrite c off).pwrite c' off' = (f.pwrite c' off').pwrite c off := by
  simp only [File.pwrite, write_comm h, max_right_comm]

/-- Two processes have different blocks. -/
theorem Conf.region_disjoint (hne : p ≠ p') {b b' : ℕ} (hb : b < conf.region) (hb' : b' < conf.region) :
    conf.fileOf p ≠ conf.fileOf p' ∨ conf.regionStart p + b ≠ conf.regionStart p' + b' := by
  unfold Conf.fileOf Conf.regionStart
  by_cases hraw : conf.rawdevice = true
  · simp only [hraw, if_true]
    exact .inr fun h => hne (row_injective hb hb' h).1
  · rw [if_neg hraw, if_neg hraw]
    exact .inl fun h => hne (FileId.pfile.inj h)

theorem Conf.entry_ne (hp : p < conf.nprocs) (hp' : p' < conf.nprocs) (hne : p ≠ p') {b b' : ℕ}
    (hb : b < conf.region) (hb' : b' < conf.region) :
    conf.pos p * conf.totblocks + (conf.regionStart p + b) ≠
      conf.pos p' * conf.totblocks + (conf.regionStart p' + b') := by
  have hend := Conf.regionStart_add_le hp
  have hend' := Conf.regionStart_add_le hp'
  intro h
  obtain ⟨hpos, hblk⟩ := row_injective (by omega) (by omega) h
  rcases Conf.region_disjoint hne hb hb' with hfile | hblk'
  · rw [← conf.fileOf_pos p, ← conf.fileOf_pos p', hpos] at hfile
    exact hfile rfl
  · exact hblk' hblk

theorem modify_comm {α : Type} {f g : α → α} {i j : ℕ} (l : List α) (h : i ≠ j ∨ f ∘ g = g ∘ f) :
    (l.modify i f).modify j g = (l.modify j g).modify i f := by
  apply List.ext_getElem?
  intro n
  simp only [List.getElem?_modify]
  cases l[n]? with
  | none => rfl
  | some x =>
    simp only [Option.map_eq_map, Option.map_some]
    by_cases hi : i = n <;> by_cases hj : j = n <;> simp only [hi, hj, if_true, if_false]
    rcases h with h | h
    · exact absurd (hi.trans hj.symm) h
    · exact congrArg some (congrFun h x).symm

/-- **What different processes do commutes.** -/
theorem Effect.commute (hE : E.Of conf p) (hE' : E'.Of conf p') (hp : p < conf.nprocs) (hp' : p' < conf.nprocs)
    (hne : p ≠ p') (files : FileId → File) (l : List BlockInfo) (n : List ℕ) :
    E'.files (E.files files) = E.files (E'.files files) ∧
      E'.contentMap (E.contentMap l) = E.contentMap (E'.contentMap l) ∧
      E'.statistics (E.statistics n) = E.statistics (E'.statistics n) := by
  refine ⟨?_, ?_, ?_⟩
  · cases hE <;> cases hE' <;> try rfl
    next content b hb hlen content' b' hb' hlen' =>
      simp only [Effect.files]
      by_cases hfile : conf.fileOf p = conf.fileOf p'
      · have hblk := (Conf.region_disjoint hne hb hb').resolve_left (not_not.mpr hfile)
        rw [← hfile]
        simp only [Function.update_self, Function.update_idem]
        rw [File.pwrite_comm]
        rw [hlen, hlen']
        exact (blocks_disjoint hblk).symm
      · rw [Function.update_of_ne (Ne.symm hfile), Function.update_of_ne hfile, Function.update_comm hfile]
  · cases hE <;> cases hE' <;> try rfl
    next b f hb b' f' hb' => exact modify_comm l (.inl (Conf.entry_ne hp hp' hne hb hb'))
  · cases hE <;> cases hE' <;> try rfl
    next i j => exact modify_comm n (.inr rfl)

end Commute

/-! ### What a statement depends on -/

/-- The same process, but for the value it has loaded and how its blocks are split into unique ones and duplicates. -/
structure Worker.Same (k k' : Worker) : Prop where
  gen : k.proc.gen = k'.proc.gen
  totOps : k.proc.totOps = k'.proc.totOps
  blocks : u64 (k.proc.uni + k.proc.dupl) = u64 (k'.proc.uni + k'.proc.dupl)
  cNurand : k.proc.cNurand = k'.proc.cNurand
  acessesarray : k.proc.acessesarray = k'.proc.acessesarray
  pending : k.pending = k'.pending
  loaded : k.loaded.isSome = k'.loaded.isSome

theorem Worker.Same.refl (k : Worker) : Worker.Same k k := ⟨rfl, rfl, rfl, rfl, rfl, rfl, rfl⟩

theorem Worker.Same.symm {k k' : Worker} (h : Worker.Same k k') : Worker.Same k' k :=
  ⟨h.gen.symm, h.totOps.symm, h.blocks.symm, h.cNurand.symm, h.acessesarray.symm, h.pending.symm, h.loaded.symm⟩

/-- The block that is being written is one of the region of the process. -/
def Worker.Placed (conf : Conf) (p : ℕ) (k : Worker) : Prop :=
  ∀ d, k.pending = some d → ∃ b < conf.region, d.iooffset = (conf.regionStart p + b) * conf.blockSize

/-- What is left of a statement: the process, and the store changed as the effect says. -/
structure Does (atomic : Bool) (E : Effect) (k : Worker) (m : Common) (r : Worker × Common) : Prop where
  worker : Worker.Same r.1 k
  files : r.2.files = E.files m.files
  contentMap : r.2.shared.contentMap = E.contentMap m.shared.contentMap
  counters : r.2.shared.statistics.length = m.shared.statistics.length
  exact : atomic = true → r.2.shared.statistics = E.statistics m.shared.statistics

/-- The stores have the same places. -/
def Common.SameSize (m m' : Common) : Prop :=
  m.shared.statistics.length = m'.shared.statistics.length ∧ m.shared.contentMap.length = m'.shared.contentMap.length

theorem Common.SameSize.symm {m m' : Common} (h : Common.SameSize m m') : Common.SameSize m' m := ⟨h.1.symm, h.2.symm⟩

section Footprint

variable {atomic : Bool} {p : ℕ} {k k₁ k' : Worker} {m m₁ m' : Common} {d : Pending} {r : Worker × Common}

theorem Does.none (m : Common) (hk : Worker.Same k' k) : Does atomic .none k m (k', m) :=
  ⟨hk, rfl, rfl, rfl, fun _ => rfl⟩

/-- A statement that has come to its end has one effect, and has it on every store, for every process that is the
same. -/
def Footprint (atomic : Bool) (conf : Conf) (info : DuplicatesInfo) (p : ℕ) (st : Statement) (k : Worker) (m : Common)
    (r : Worker × Common) : Prop :=
  ∃ E : Effect, E.Of conf p ∧ Does atomic E r.1 m r ∧ ∀ k₁ m₁, Worker.Same k₁ k → Common.SameSize m₁ m →
    ∃ r₁, st.run atomic conf info p k₁ m₁ = .ok r₁ ∧ Does atomic E r.1 m₁ r₁

theorem getElem?_isSome_congr {α : Type} {l l₁ : List α} {i : ℕ} {x : α} (h : l₁.length = l.length)
    (hi : l[i]? = some x) : ∃ y, l₁[i]? = some y := by
  have hlt := (List.getElem?_eq_some_iff.mp hi).1
  exact ⟨_, List.getElem?_eq_getElem (h ▸ hlt)⟩

theorem request_footprint {draw : Generator.Draw} {raws : List ℕ} (hp : p < conf.nprocs)
    (h : (Statement.request draw raws).run atomic conf info p k m = .ok r) :
    Footprint atomic conf info p (.request draw raws) k m r ∧ r.1.Placed conf p := by
  cases hpend : k.pending with
  | some d => simp only [Statement.run, hpend] at h; cases h
  | none =>
  simp only [Statement.run, hpend, bind_eq_ok] at h
  obtain ⟨⟨gen, buf, e⟩, hw, ⟨off, rest⟩, hoff, h⟩ := h
  cases h
  refine ⟨⟨.none, .none, .none m (.refl _), fun k₁ m₁ hk _ => ?_⟩, ?_⟩
  · refine ⟨({ k₁ with proc := { k₁.proc with gen }, pending := some ⟨buf, e, off⟩ }, m₁), ?_, .none m₁ ?_⟩
    · simp only [Statement.run, hk.pending, hpend, hk.gen, hw, hk.totOps, hk.cNurand, hoff, bind_ok]
    · exact ⟨rfl, hk.totOps, hk.blocks, hk.cNurand, hk.acessesarray, rfl, hk.loaded⟩
  · intro d hd
    cases hd
    exact getIoposition_region hp hoff

/-- A statement behind the first needs a block. -/
theorem exists_pending {st : Statement} (hst : ∀ draw raws, st ≠ .request draw raws)
    (h : st.run atomic conf info p k m = .ok r) : ∃ d, k.pending = some d := by
  cases hpend : k.pending with
  | some d => exact ⟨d, rfl⟩
  | none =>
    cases st with
    | request draw raws => exact absurd rfl (hst draw raws)
    | _ => simp only [Statement.run, hpend] at h; cases h

theorem load_footprint (h : Statement.load.run atomic conf info p k m = .ok r) :
    Footprint atomic conf info p .load k m r ∧ r.1.pending = k.pending := by
  obtain ⟨d, hd⟩ := exists_pending (by simp) h
  obtain ⟨q, pending, loaded⟩ := k
  obtain rfl : pending = some d := hd
  simp only [Statement.run, bind_eq_ok] at h
  obtain ⟨slot, hslot, h⟩ := h
  cases slot with
  | none =>
    cases h
    refine ⟨⟨.none, .none, .none m (.refl _), fun ⟨q₁, pending₁, loaded₁⟩ m₁ hk _ => ?_⟩, rfl⟩
    obtain rfl : pending₁ = some d := hk.pending
    refine ⟨_, ?_, .none m₁ hk⟩
    simp only [Statement.run, hslot, bind_ok]
  | some i =>
    cases hi : m.shared.statistics[i]? with
    | none => simp only [hi] at h; cases h
    | some n =>
    simp only [hi] at h
    cases h
    refine ⟨⟨.none, .none, .none m (.refl _), fun ⟨q₁, pending₁, loaded₁⟩ m₁ hk hm => ?_⟩, rfl⟩
    obtain rfl : pending₁ = some d := hk.pending
    obtain ⟨v, hv⟩ := getElem?_isSome_congr hm.1 hi
    refine ⟨(⟨q₁, some d, some v⟩, m₁), ?_, .none m₁ ?_⟩
    · simp only [Statement.run, hslot, bind_ok, hv]
    · exact ⟨hk.gen, hk.totOps, hk.blocks, hk.cNurand, hk.acessesarray, hk.pending, rfl⟩

theorem store_footprint (h : Statement.store.run atomic conf info p k m = .ok r) :
    Footprint atomic conf info p .store k m r ∧ r.1.pending = k.pending := by
  obtain ⟨d, hd⟩ := exists_pending (by simp) h
  obtain ⟨q, pending, loaded⟩ := k
  obtain rfl : pending = some d := hd
  simp only [Statement.run, bind_eq_ok] at h
  obtain ⟨slot, hslot, h⟩ := h
  cases slot with
  | none =>
    cases h
    refine ⟨⟨.none, .none, .none m (.refl _), fun ⟨q₁, pending₁, loaded₁⟩ m₁ hk _ => ?_⟩, rfl⟩
    obtain rfl : pending₁ = some d := hk.pending
    refine ⟨_, ?_, .none m₁ hk⟩
    simp only [Statement.run, hslot, bind_ok]
  | some i =>
    cases loaded with
    | none => cases h
    | some n =>
    cases hi : m.shared.statistics[i]? with
    | none => simp only [hi] at h; cases h
    | some v =>
    simp only [hi] at h
    cases h
    -- what an atomic increment does to any counters with this place
    have hmodify : ∀ (l : List ℕ) (n v : ℕ), l[i]? = some v → atomic = true →
        l.set i (u64 ((if atomic then v else n) + 1)) = l.modify i fun n => u64 (n + 1) := by
      intro l n v hv hatomic
      rw [if_pos hatomic]
      apply List.ext_getElem?
      intro j
      rw [List.getElem?_modify, List.getElem?_set]
      by_cases hj : i = j
      · subst hj
        rw [if_pos rfl, if_pos (List.getElem?_eq_some_iff.mp hv).1, hv]
        simp
      · simp [hj]
    refine ⟨⟨.count i, .count i, ⟨.refl _, rfl, rfl, List.length_set, hmodify _ n v hi⟩,
      fun ⟨q₁, pending₁, loaded₁⟩ m₁ hk hm => ?_⟩, rfl⟩
    obtain rfl : pending₁ = some d := hk.pending
    obtain ⟨v₁, hv₁⟩ := getElem?_isSome_congr hm.1 hi
    obtain ⟨n₁, hn₁⟩ := Option.isSome_iff_exists.mp (hk.loaded.trans rfl)
    obtain rfl : loaded₁ = some n₁ := hn₁
    refine ⟨_, by simp only [Statement.run, hslot, bind_ok, hv₁]; rfl, ?_⟩
    exact ⟨⟨hk.gen, hk.totOps, hk.blocks, hk.cNurand, hk.acessesarray, hk.pending, rfl⟩, rfl, rfl, List.length_set,
      hmodify _ n₁ v₁ hv₁⟩

theorem u64_add_left (a b : ℕ) : u64 (u64 a + b) = u64 (a + b) := Nat.mod_add_mod a _ b

theorem u64_add_right (a b : ℕ) : u64 (a + u64 b) = u64 (a + b) := Nat.add_mod_mod a b _

/-- One more block of a process, unique or not. -/
theorem same_counted {q q₁ : Proc} {pending : Option Pending} {loaded loaded₁ : Option ℕ} {uni uni₁ dupl dupl₁ : ℕ}
    (hk : Worker.Same ⟨q₁, pending, loaded₁⟩ ⟨q, pending, loaded⟩) (h : u64 (uni + dupl) = u64 (q.uni + q.dupl + 1))
    (h₁ : u64 (uni₁ + dupl₁) = u64 (q₁.uni + q₁.dupl + 1)) :
    Worker.Same ⟨{ q₁ with uni := uni₁, dupl := dupl₁ }, pending, loaded₁⟩ ⟨{ q with uni, dupl }, pending, loaded⟩ := by
  refine ⟨hk.gen, hk.totOps, ?_, hk.cNurand, hk.acessesarray, rfl, hk.loaded⟩
  have hblocks : u64 (q₁.uni + q₁.dupl) = u64 (q.uni + q.dupl) := hk.blocks
  show u64 (uni₁ + dupl₁) = u64 (uni + dupl)
  rw [h, h₁, ← u64_add_left, hblocks, u64_add_left]

theorem test_footprint (h : Statement.test.run atomic conf info p k m = .ok r) :
    Footprint atomic conf info p .test k m r ∧ r.1.pending = k.pending := by
  obtain ⟨d, hd⟩ := exists_pending (by simp) h
  obtain ⟨q, pending, loaded⟩ := k
  obtain rfl : pending = some d := hd
  simp only [Statement.run, bind_eq_ok] at h
  obtain ⟨slot, hslot, h⟩ := h
  have huni : ∀ q : Proc, u64 (u64 (q.uni + 1) + q.dupl) = u64 (q.uni + q.dupl + 1) := fun q => by
    rw [u64_add_left, Nat.add_right_comm]
  have hdupl : ∀ q : Proc, u64 (q.uni + u64 (q.dupl + 1)) = u64 (q.uni + q.dupl + 1) := fun q => by
    rw [u64_add_right, Nat.add_assoc]
  cases slot with
  | none =>
    cases h
    refine ⟨⟨.none, .none, .none m (.refl _), fun ⟨q₁, pending₁, loaded₁⟩ m₁ hk _ => ?_⟩, rfl⟩
    obtain rfl : pending₁ = some d := hk.pending
    refine ⟨_, ?_, .none m₁ hk⟩
    simp only [Statement.run, hslot, bind_ok]
  | some i =>
    by_cases hflag : d.infoWrite.flagUniqueBlock = 0
    · cases hi : m.shared.statistics[i]? with
      | none => simp only [hflag, if_true, hi] at h; cases h
      | some n =>
      -- either way one more block is counted
      have hcounted : ∃ uni dupl, u64 (uni + dupl) = u64 (q.uni + q.dupl + 1) ∧
          r = (⟨{ q with uni, dupl }, some d, loaded⟩, m) := by
        simp only [hflag, if_true, hi] at h
        split at h <;> cases h
        · exact ⟨_, _, hdupl q, rfl⟩
        · exact ⟨_, _, huni q, rfl⟩
      obtain ⟨uni, dupl, hsum, rfl⟩ := hcounted
      refine ⟨⟨.none, .none, .none m (.refl _), fun ⟨q₁, pending₁, loaded₁⟩ m₁ hk hm => ?_⟩, rfl⟩
      obtain rfl : pending₁ = some d := hk.pending
      obtain ⟨v, hv⟩ := getElem?_isSome_congr hm.1 hi
      by_cases hlt : 1 < v
      · refine ⟨_, by simp only [Statement.run, hslot, bind_ok, hflag, hv, hlt, if_true]; rfl, ?_⟩
        exact .none m₁ (same_counted hk hsum (hdupl q₁))
      · refine ⟨_, by simp only [Statement.run, hslot, bind_ok, hflag, hv, hlt, if_true, if_false]; rfl, ?_⟩
        exact .none m₁ (same_counted hk hsum (huni q₁))
    · simp only [hflag, if_false] at h
      cases h
      refine ⟨⟨.none, .none, .none m (.refl _), fun ⟨q₁, pending₁, loaded₁⟩ m₁ hk hm => ?_⟩, rfl⟩
      obtain rfl : pending₁ = some d := hk.pending
      refine ⟨_, by simp only [Statement.run, hslot, bind_ok, hflag, if_false]; rfl, ?_⟩
      exact .none m₁ (same_counted hk (huni q) (huni q₁))

theorem access_footprint (h : Statement.access.run atomic conf info p k m = .ok r) :
    Footprint atomic conf info p .access k m r ∧ r.1.pending = k.pending := by
  obtain ⟨d, hd⟩ := exists_pending (by simp) h
  obtain ⟨q, pending, loaded⟩ := k
  obtain rfl : pending = some d := hd
  simp only [Statement.run, bind_eq_ok] at h
  obtain ⟨accesses, hacc, h⟩ := h
  cases h
  refine ⟨⟨.none, .none, .none m (.refl _), fun ⟨q₁, pending₁, loaded₁⟩ m₁ hk _ => ?_⟩, rfl⟩
  obtain rfl : pending₁ = some d := hk.pending
  refine ⟨(⟨{ q₁ with acessesarray := accesses }, some d, loaded₁⟩, m₁), ?_, .none m₁ ?_⟩
  · have hsame : q₁.acessesarray = q.acessesarray := hk.acessesarray
    simp only [Statement.run, hsame, hacc, bind_ok]
  · exact ⟨hk.gen, hk.totOps, hk.blocks, hk.cNurand, rfl, hk.pending, hk.loaded⟩

theorem pwrite_footprint (hplaced : k.Placed conf p) (h : Statement.pwrite.run atomic conf info p k m = .ok r) :
    Footprint atomic conf info p .pwrite k m r ∧ r.1.pending = k.pending := by
  obtain ⟨d, hd⟩ := exists_pending (by simp) h
  obtain ⟨q, pending, loaded⟩ := k
  obtain rfl : pending = some d := hd
  obtain ⟨b, hb, hoff⟩ := hplaced d rfl
  simp only [Statement.run, bind_eq_ok] at h
  obtain ⟨content, hcontent, h⟩ := h
  cases h
  have hlen : content.length = conf.blockSize := by
    obtain ⟨l, -, hbytes⟩ := bind_eq_ok.mp hcontent
    rw [← (Buffer.bytes_eq_ok.mp hbytes).2, length_read]
  refine ⟨⟨_, .pwrite hb hlen, ⟨.refl _, by rw [hoff]; rfl, rfl, rfl, fun _ => rfl⟩,
    fun ⟨q₁, pending₁, loaded₁⟩ m₁ hk _ => ?_⟩, rfl⟩
  obtain rfl : pending₁ = some d := hk.pending
  have hgen : q₁.gen = q.gen := hk.gen
  refine ⟨_, by simp only [Statement.run, hgen, hcontent, bind_ok]; rfl, hk, by rw [hoff]; rfl, rfl, rfl,
    fun _ => rfl⟩

theorem track_footprint {f : TrackField} (hplaced : k.Placed conf p)
    (h : (Statement.track f).run atomic conf info p k m = .ok r) :
    Footprint atomic conf info p (.track f) k m r ∧ r.1.pending = k.pending := by
  obtain ⟨d, hd⟩ := exists_pending (by simp) h
  obtain ⟨q, pending, loaded⟩ := k
  obtain rfl : pending = some d := hd
  obtain ⟨b, hb, hoff⟩ := hplaced d rfl
  have hblk : d.iooffset / conf.blockSize = conf.regionStart p + b := by
    rw [hoff, Nat.mul_div_cancel _ conf.blockSize_pos]
  simp only [Statement.run] at h
  by_cases hint : conf.integrity = 0
  · rw [if_pos hint] at h
    cases h
    refine ⟨⟨.none, .none, .none m (.refl _), fun ⟨q₁, pending₁, loaded₁⟩ m₁ hk _ => ?_⟩, rfl⟩
    obtain rfl : pending₁ = some d := hk.pending
    refine ⟨_, ?_, .none m₁ hk⟩
    simp only [Statement.run, if_pos hint]
  · rw [if_neg hint] at h
    split at h
    next hlt =>
      cases h
      refine ⟨⟨_, .track (f.assign d.infoWrite) hb, ⟨.refl _, rfl, by rw [← hblk]; rfl, rfl, fun _ => rfl⟩,
        fun ⟨q₁, pending₁, loaded₁⟩ m₁ hk hm => ?_⟩, rfl⟩
      obtain rfl : pending₁ = some d := hk.pending
      refine ⟨_, by simp only [Statement.run, if_neg hint, hm.2, if_pos hlt]; rfl, hk, rfl,
        by rw [← hblk]; rfl, rfl, fun _ => rfl⟩
    next => cases h

theorem finish_footprint {measured : Bool} (h : (Statement.finish measured).run atomic conf info p k m = .ok r) :
    Footprint atomic conf info p (.finish measured) k m r ∧ r.1.pending = none := by
  obtain ⟨d, hd⟩ := exists_pending (by simp) h
  obtain ⟨q, pending, loaded⟩ := k
  obtain rfl : pending = some d := hd
  simp only [Statement.run] at h
  cases h
  refine ⟨⟨.none, .none, .none m (.refl _), fun ⟨q₁, pending₁, loaded₁⟩ m₁ hk _ => ?_⟩, rfl⟩
  obtain rfl : pending₁ = some d := hk.pending
  refine ⟨_, by simp only [Statement.run]; rfl, .none m₁ ?_⟩
  have htotOps : q₁.totOps = q.totOps := hk.totOps
  exact ⟨hk.gen, by simp only [htotOps], hk.blocks, hk.cNurand, hk.acessesarray, rfl, rfl⟩

/-- **Every statement has one effect**, on the blocks of the process that comes to it. -/
theorem Statement.footprint {st : Statement} (hp : p < conf.nprocs) (hplaced : k.Placed conf p)
    (h : st.run atomic conf info p k m = .ok r) :
    Footprint atomic conf info p st k m r ∧ r.1.Placed conf p := by
  have hkeep : r.1.pending = k.pending → r.1.Placed conf p := fun heq d hd => hplaced d (heq ▸ hd)
  cases st with
  | request draw raws => exact request_footprint hp h
  | load => exact (load_footprint h).imp_right hkeep
  | store => exact (store_footprint h).imp_right hkeep
  | test => exact (test_footprint h).imp_right hkeep
  | access => exact (access_footprint h).imp_right hkeep
  | pwrite => exact (pwrite_footprint hplaced h).imp_right hkeep
  | track f => exact (track_footprint hplaced h).imp_right hkeep
  | finish measured =>
    obtain ⟨hfoot, hnone⟩ := finish_footprint h
    exact ⟨hfoot, fun d hd => absurd (hnone.symm.trans hd) (by simp)⟩

end Footprint

/-! ### Statements of different processes commute -/

/-- The same state, but for the values of the counters, unless increments are atomic, and for how the blocks of a
process are split into unique ones and duplicates. -/
structure Fine.Agree (atomic : Bool) (s t : Fine) : Prop where
  files : s.files = t.files
  contentMap : s.shared.contentMap = t.shared.contentMap
  gen : s.gen = t.gen
  workers : ∀ p, Worker.Same (s.workers p) (t.workers p)
  counters : s.shared.statistics.length = t.shared.statistics.length
  exact : atomic = true → s.shared.statistics = t.shared.statistics

/-- What states that agree have in common. -/
def Worker.erase (k : Worker) : Worker :=
  ⟨{ k.proc with uni := u64 (k.proc.uni + k.proc.dupl), dupl := 0 }, k.pending, k.loaded.map fun _ => 0⟩

def Fine.erase (atomic : Bool) (s : Fine) : Fine where
  files := s.files
  shared := { s.shared with
    statistics := if atomic then s.shared.statistics else s.shared.statistics.map fun _ => 0 }
  gen := s.gen
  workers p := (s.workers p).erase

theorem Worker.erase_eq_iff {k k' : Worker} : k.erase = k'.erase ↔ Worker.Same k k' := by
  have hloaded : ∀ l l' : Option ℕ, (l.map fun _ => 0) = (l'.map fun _ => 0) ↔ l.isSome = l'.isSome := by
    intro l l'
    cases l <;> cases l' <;> simp
  constructor
  · intro h
    simp only [Worker.erase, Worker.mk.injEq, Proc.mk.injEq, hloaded, true_and] at h
    obtain ⟨⟨hgen, htotOps, hblocks, hcNurand, haccesses⟩, hpending, hl⟩ := h
    exact ⟨hgen, htotOps, hblocks, hcNurand, haccesses, hpending, hl⟩
  · intro h
    simp only [Worker.erase, Worker.mk.injEq, Proc.mk.injEq, hloaded, true_and]
    exact ⟨⟨h.gen, h.totOps, h.blocks, h.cNurand, h.acessesarray⟩, h.pending, h.loaded⟩

theorem Fine.erase_eq_iff {atomic : Bool} {s t : Fine} : s.erase atomic = t.erase atomic ↔ Fine.Agree atomic s t := by
  have hzero : ∀ l l' : List ℕ, (l.map fun _ => 0) = (l'.map fun _ => 0) ↔ l.length = l'.length := by
    intro l l'
    simp only [List.map_const', List.replicate_left_inj]
  constructor
  · intro h
    simp only [Fine.erase, Fine.mk.injEq, Shared.mk.injEq] at h
    obtain ⟨hfiles, ⟨hstat, hmap⟩, hgen, hworkers⟩ := h
    refine ⟨hfiles, hmap, hgen, fun p => Worker.erase_eq_iff.mp (congrFun hworkers p), ?_, fun hatomic => ?_⟩
    · cases atomic with
      | false => exact (hzero _ _).mp hstat
      | true => exact congrArg List.length hstat
    · subst hatomic
      exact hstat
  · intro h
    simp only [Fine.erase, Fine.mk.injEq, Shared.mk.injEq]
    refine ⟨h.files, ⟨?_, h.contentMap⟩, h.gen, funext fun p => Worker.erase_eq_iff.mpr (h.workers p)⟩
    cases atomic with
    | false => exact (hzero _ _).mpr h.counters
    | true => exact h.exact rfl

section Commutes

variable {atomic : Bool} {a b : Micro} {s s' t u : Fine}

theorem microStep_eq_ok : microStep atomic conf info s a = .ok t ↔
    ∃ r, a.statement.run atomic conf info a.idproc (s.workers a.idproc) ⟨s.files, s.shared⟩ = .ok r ∧
      t = ⟨r.2.files, r.2.shared, s.gen, Function.update s.workers a.idproc r.1⟩ := by
  rw [microStep, bind_eq_ok]
  constructor
  · rintro ⟨⟨k, m⟩, hr, h⟩
    cases h
    exact ⟨(k, m), hr, rfl⟩
  · rintro ⟨⟨k, m⟩, hr, rfl⟩
    exact ⟨(k, m), hr, rfl⟩

theorem Effect.length_contentMap (E : Effect) (l : List BlockInfo) : (E.contentMap l).length = l.length := by
  cases E <;> simp [Effect.contentMap]

theorem Does.sameSize {E : Effect} {k : Worker} {m : Common} {r : Worker × Common} (h : Does atomic E k m r) :
    Common.SameSize r.2 m :=
  ⟨h.counters, by rw [h.contentMap, E.length_contentMap]⟩

/-- Every block that is being written is one of the region of its process. -/
def Fine.Placed (conf : Conf) (s : Fine) : Prop := ∀ p, (s.workers p).Placed conf p

theorem microStep_placed (hs : s.Placed conf) (ha : a.idproc < conf.nprocs)
    (h : microStep atomic conf info s a = .ok t) : t.Placed conf := by
  obtain ⟨r, hr, rfl⟩ := microStep_eq_ok.mp h
  intro p
  show (Function.update s.workers a.idproc r.1 p).Placed conf p
  by_cases hp : p = a.idproc
  · subst hp
    rw [Function.update_self]
    exact (Statement.footprint ha (hs _) hr).2
  · rw [Function.update_of_ne hp]
    exact hs p

theorem microStep_respects (hs : s.Placed conf) (ha : a.idproc < conf.nprocs) (hsame : Fine.Agree atomic s s')
    (h : microStep atomic conf info s a = .ok t) :
    ∃ t', microStep atomic conf info s' a = .ok t' ∧ Fine.Agree atomic t t' := by
  obtain ⟨r, hr, rfl⟩ := microStep_eq_ok.mp h
  obtain ⟨⟨E, -, hdoes, hother⟩, -⟩ := Statement.footprint ha (hs _) hr
  obtain ⟨r', hr', hdoes'⟩ := hother (s'.workers a.idproc) ⟨s'.files, s'.shared⟩ (hsame.workers _).symm
    ⟨hsame.counters.symm, congrArg List.length hsame.contentMap.symm⟩
  refine ⟨_, microStep_eq_ok.mpr ⟨r', hr', rfl⟩, ?_, ?_, hsame.gen, fun p => ?_, ?_, fun hatomic => ?_⟩
  · rw [hdoes.files, hdoes'.files, hsame.files]
  · rw [hdoes.contentMap, hdoes'.contentMap, hsame.contentMap]
  · show Worker.Same (Function.update s.workers a.idproc r.1 p) (Function.update s'.workers a.idproc r'.1 p)
    by_cases hp : p = a.idproc
    · subst hp
      rw [Function.update_self, Function.update_self]
      exact hdoes'.worker.symm
    · rw [Function.update_of_ne hp, Function.update_of_ne hp]
      exact hsame.workers p
  · rw [hdoes.counters, hdoes'.counters, hsame.counters]
  · rw [hdoes.exact hatomic, hdoes'.exact hatomic, hsame.exact hatomic]

theorem microStep_swap (hs : s.Placed conf) (ha : a.idproc < conf.nprocs) (hb : b.idproc < conf.nprocs)
    (hne : a.idproc ≠ b.idproc) (hat : microStep atomic conf info s a = .ok t)
    (hbu : microStep atomic conf info t b = .ok u) :
    ∃ t' u', microStep atomic conf info s b = .ok t' ∧ microStep atomic conf info t' a = .ok u' ∧
      Fine.Agree atomic u u' := by
  obtain ⟨r, hr, rfl⟩ := microStep_eq_ok.mp hat
  obtain ⟨v, hv, rfl⟩ := microStep_eq_ok.mp hbu
  simp only [Function.update_of_ne hne.symm] at hv
  obtain ⟨⟨E, hE, hdoes, hother⟩, -⟩ := Statement.footprint ha (hs _) hr
  obtain ⟨⟨E', hE', hdoes', hother'⟩, -⟩ := Statement.footprint hb (hs _) hv
  -- the second statement first, and the first one after it
  obtain ⟨v', hv', hfirst⟩ := hother' (s.workers b.idproc) ⟨s.files, s.shared⟩ (.refl _) hdoes.sameSize.symm
  obtain ⟨r', hr', hsecond⟩ := hother (s.workers a.idproc) v'.2 (.refl _) hfirst.sameSize
  refine ⟨_, _, microStep_eq_ok.mpr ⟨v', hv', rfl⟩, microStep_eq_ok.mpr ⟨r', ?_, rfl⟩, ?_⟩
  · simp only [Function.update_of_ne hne]
    exact hr'
  obtain ⟨hfiles, hmap, hstat⟩ := Effect.commute hE hE' ha hb hne s.files s.shared.contentMap s.shared.statistics
  refine ⟨?_, ?_, rfl, fun p => ?_, ?_, fun hatomic => ?_⟩
  · rw [hdoes'.files, hdoes.files, hsecond.files, hfirst.files]
    exact hfiles
  · rw [hdoes'.contentMap, hdoes.contentMap, hsecond.contentMap, hfirst.contentMap]
    exact hmap
  · show Worker.Same (Function.update (Function.update s.workers a.idproc r.1) b.idproc v.1 p)
      (Function.update (Function.update s.workers b.idproc v'.1) a.idproc r'.1 p)
    rw [Function.update_comm hne]
    by_cases hpa : p = a.idproc
    · subst hpa
      rw [Function.update_self, Function.update_self]
      exact hsecond.worker.symm
    · rw [Function.update_of_ne hpa, Function.update_of_ne hpa]
      by_cases hpb : p = b.idproc
      · subst hpb
        rw [Function.update_self, Function.update_self]
        exact hfirst.worker.symm
      · rw [Function.update_of_ne hpb, Function.update_of_ne hpb]
        exact .refl _
  · rw [hdoes'.counters, hdoes.counters, hsecond.counters, hfirst.counters]
  · rw [hdoes'.exact hatomic, hdoes.exact hatomic, hsecond.exact hatomic, hfirst.exact hatomic]
    exact hstat

/-- **Statements of different processes commute.** -/
theorem commutes (atomic : Bool) (conf : Conf) (info : DuplicatesInfo) :
    Commutes Micro.idproc (microStep atomic conf info) (Fine.erase atomic) (Fine.Placed conf)
      (fun a => a.idproc < conf.nprocs) where
  keep _ _ _ hs ha h := microStep_placed hs ha h
  respects _ _ _ _ hs _ ha hobs h := by
    obtain ⟨t', ht', hagree⟩ := microStep_respects hs ha (Fine.erase_eq_iff.mp hobs) h
    exact ⟨t', ht', Fine.erase_eq_iff.mpr hagree⟩
  swap _ _ _ _ _ hs ha hb hne h h' := by
    obtain ⟨t', u', ht', hu', hagree⟩ := microStep_swap hs ha hb hne h h'
    exact ⟨t', u', ht', hu', Fine.erase_eq_iff.mpr hagree⟩

end Commutes

end Dedisbench
