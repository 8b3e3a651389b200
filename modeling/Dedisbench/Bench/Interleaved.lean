import Dedisbench.Bench.Distout
import Dedisbench.Bench.Steps

/-!
# Writes that are interleaved

Whatever the order in which the processes come to their statements, the files, the tracker and what every process knows
are those of a run in which each write is one step (`statements_atomic`), so that there is still no false integrity
error (`interleaved_integrity`).  Of a counter an increment can be lost, but never the last one: a block that is
written is never counted as one that is not (`statements_count`).
-/

namespace Dedisbench

open ByteMem ExceptRun Interleave

variable {conf : Conf} {info : DuplicatesInfo} {atomic : Bool}

/-! ### A write on its own -/

/-- Statements of one process, on the process and the store. -/
def workerRun (atomic : Bool) (conf : Conf) (info : DuplicatesInfo) (p : ℕ) (sts : List Statement)
    (km : Worker × Common) : Exec (Worker × Common) :=
  sts.foldlM (fun (km : Worker × Common) st => st.run atomic conf info p km.1 km.2) km

theorem workerRun_cons (p : ℕ) (st : Statement) (sts : List Statement) (km : Worker × Common) :
    workerRun atomic conf info p (st :: sts) km =
      st.run atomic conf info p km.1 km.2 >>= workerRun atomic conf info p sts :=
  List.foldlM_cons

theorem workerRun_nil (p : ℕ) (km : Worker × Common) : workerRun atomic conf info p [] km = .ok km := rfl

theorem workerRun_append (p : ℕ) (sts sts' : List Statement) (km : Worker × Common) :
    workerRun atomic conf info p (sts ++ sts') km =
      workerRun atomic conf info p sts km >>= workerRun atomic conf info p sts' :=
  List.foldlM_append

theorem microRun_map (p : ℕ) (sts : List Statement) (s : Fine) :
    microRun atomic conf info (sts.map (Micro.mk p)) s = (do
      let (k, m) ← workerRun atomic conf info p sts (s.workers p, ⟨s.files, s.shared⟩)
      .ok { s with files := m.files, shared := m.shared, workers := Function.update s.workers p k }) := by
  induction sts generalizing s with
  | nil => simp [microRun, workerRun_nil, bind_ok, pure, Except.pure]
  | cons st sts ih =>
    rw [List.map_cons, microRun, List.foldlM_cons, microStep, workerRun_cons]
    cases st.run atomic conf info p (s.workers p) ⟨s.files, s.shared⟩ with
    | error e => rfl
    | ok r =>
      simp only [bind_ok]
      rw [← microRun, ih]
      simp only [Function.update_self, Function.update_idem]

theorem processCount_eq (q : Proc) (sh : Shared) (e : BlockInfo) :
    processCount conf info q sh e = (do
      match ← counterOf conf info e with
      | none => .ok (q, sh)
      | some i =>
        let (sh, n) ← sh.count i
        if e.flagUniqueBlock = 0 then
          if 1 < n then .ok ({ q with dupl := u64 (q.dupl + 1) }, sh) else .ok ({ q with uni := u64 (q.uni + 1) }, sh)
        else .ok ({ q with uni := u64 (q.uni + 1) }, sh)) := by
  unfold processCount counterOf
  by_cases hout : conf.distout = false
  · rw [if_pos hout, if_pos hout]
    rfl
  rw [if_neg hout, if_neg hout]
  by_cases hflag : e.flagUniqueBlock = 0
  · simp only [hflag, if_true]
    split <;> rfl
  · simp only [hflag, if_false]
    rfl

/-- The accounting of a block. -/
def counting : List Statement := [.load, .store, .test]

/-- The assignments to a tracker entry. -/
def tracking : List Statement :=
  [.track .contId, .track .procId, .track .blockId, .track .compressionIndex, .track .flagUniqueBlock]

theorem workerRun_counting (p : ℕ) (q : Proc) (d : Pending) (m : Common) :
    workerRun atomic conf info p counting (⟨q, some d, none⟩, m) = (do
      let (q, shared) ← processCount conf info q m.shared d.infoWrite
      .ok (⟨q, some d, none⟩, { m with shared })) := by
  rw [processCount_eq, counting, workerRun_cons]
  cases hslot : counterOf conf info d.infoWrite with
  | error e => simp only [Statement.run, hslot, bind_error]
  | ok slot =>
  cases slot with
  | none => simp only [Statement.run, workerRun_cons, workerRun_nil, hslot, bind_ok]
  | some i =>
    cases hi : m.shared.statistics[i]? with
    | none => simp only [Statement.run, Shared.count, hslot, bind_ok, hi, bind_error]
    | some n =>
      have hlt := (List.getElem?_eq_some_iff.mp hi).1
      simp only [Statement.run, workerRun_cons, Shared.count, hslot, bind_ok, hi, ite_self,
        List.getElem?_set_self hlt]
      split
      · split <;> rfl
      · rfl

/-- The fields of an entry are assigned one after the other. -/
theorem workerRun_tracking (p : ℕ) (q : Proc) (d : Pending) (loaded : Option ℕ) (m : Common) :
    workerRun atomic conf info p tracking (⟨q, some d, loaded⟩, m) = (do
      let shared ← m.shared.track conf (conf.pos p) (d.iooffset / conf.blockSize) d.infoWrite
      .ok (⟨q, some d, loaded⟩, { m with shared })) := by
  unfold Shared.track tracking
  by_cases hint : conf.integrity = 0
  · simp only [workerRun_cons, workerRun_nil, Statement.run, if_pos hint, bind_ok]
  by_cases hlt : conf.pos p * conf.totblocks + d.iooffset / conf.blockSize < m.shared.contentMap.length
  · simp only [workerRun_cons, workerRun_nil, Statement.run, if_neg hint, if_pos hlt, bind_ok, List.length_modify,
      List.modify_modify_eq]
    have hset : ∀ (l : List BlockInfo) (j : ℕ) (e : BlockInfo), j < l.length →
        l.modify j (TrackField.assign .flagUniqueBlock e ∘ TrackField.assign .compressionIndex e ∘
          TrackField.assign .blockId e ∘ TrackField.assign .procId e ∘ TrackField.assign .contId e) = l.set j e := by
      intro l j e hj
      apply List.ext_getElem?
      intro n
      rw [List.getElem?_modify, List.getElem?_set]
      by_cases hn : j = n
      · subst hn
        simp only [if_true, if_pos hj, List.getElem?_eq_getElem hj]
        rfl
      · simp [hn]
    rw [← hset _ _ _ hlt]
  · simp only [workerRun_cons, Statement.run, if_neg hint, if_neg hlt, bind_error]

/-- **A write that no other process gets in between is one step.** -/
theorem microRun_statements (w : WriteStep) (s : Sys) :
    microRun atomic conf info w.statements s.fine = (do
      let s' ← processWrite conf info s w
      .ok s'.fine) := by
  have hparts : w.statements = (Statement.request w.draw w.raws :: (counting ++ Statement.access :: Statement.pwrite ::
      (tracking ++ [Statement.finish w.measured]))).map (Micro.mk w.idproc) := rfl
  rw [hparts, microRun_map, processWrite, workerRun_cons]
  simp only [Sys.fine, Statement.run]
  cases getWritecontent (s.procs w.idproc).gen w.idproc w.draw with
  | error e => rfl
  | ok x =>
  obtain ⟨gen, buf, e⟩ := x
  simp only [bind_ok]
  cases getIoposition conf (s.procs w.idproc).totOps (s.procs w.idproc).cNurand w.idproc w.raws with
  | error e => rfl
  | ok x =>
  obtain ⟨off, rest⟩ := x
  simp only [bind_ok, workerRun_append, workerRun_counting]
  cases hcount : processCount conf info { s.procs w.idproc with gen } s.shared e with
  | error e => rfl
  | ok x =>
  obtain ⟨q, sh⟩ := x
  obtain rfl : q.gen = gen := (processCount_frame hcount).2
  simp only [bind_ok, workerRun_cons, Statement.run]
  cases countAccess q.acessesarray (off / conf.blockSize) with
  | error e => rfl
  | ok acessesarray =>
  simp only [bind_ok, workerRun_cons, Statement.run]
  cases q.gen.contentAt buf conf.blockSize with
  | error e => rfl
  | ok content =>
  simp only [bind_ok, workerRun_append, workerRun_tracking, Sys.store]
  cases sh.track conf (conf.pos w.idproc) (off / conf.blockSize) e with
  | error e => rfl
  | ok sh =>
  simp only [bind_ok, workerRun_cons, workerRun_nil, Statement.run]
  refine congrArg Except.ok ?_
  simp only [Fine.mk.injEq, true_and]
  funext p
  by_cases hp : p = w.idproc
  · subst hp
    simp only [Function.update_self]
  · simp only [Function.update_of_ne hp]

theorem microRun_serial (steps : List WriteStep) (s : Sys) :
    microRun atomic conf info (steps.flatMap WriteStep.statements) s.fine = (do
      let s' ← processRun conf info steps s
      .ok s'.fine) := by
  induction steps generalizing s with
  | nil => rfl
  | cons w steps ih =>
    rw [List.flatMap_cons, microRun, List.foldlM_append, ← microRun, microRun_statements, processRun, List.foldlM_cons]
    cases processWrite conf info s w with
    | error e => rfl
    | ok s₁ => exact ih s₁

/-! ### Writes of different processes -/

theorem WriteStep.idproc_statements (w : WriteStep) : ∀ a ∈ w.statements, a.idproc = w.idproc := by
  intro a ha
  obtain ⟨st, -, rfl⟩ := List.mem_map.mp ha
  rfl

theorem Sys.fine_placed (s : Sys) : s.fine.Placed conf := fun _ _ hd => nomatch hd

section Interleaved

variable {steps : List WriteStep} {micros : List Micro} {s s' : Sys} {t : Fine}

theorem lt_nprocs_of_same (hsteps : ∀ w ∈ steps, w.idproc < conf.nprocs)
    (hsame : SamePrograms Micro.idproc micros (steps.flatMap WriteStep.statements)) :
    ∀ a ∈ micros, a.idproc < conf.nprocs := by
  intro a ha
  obtain ⟨w, hw, haw⟩ := List.mem_flatMap.mp (hsame.mem_iff.mp ha)
  rw [w.idproc_statements a haw]
  exact hsteps w hw

theorem exists_serial (hsteps : ∀ w ∈ steps, w.idproc < conf.nprocs)
    (hsame : SamePrograms Micro.idproc micros (steps.flatMap WriteStep.statements))
    (h : microRun atomic conf info micros s.fine = .ok t) :
    ∃ s', processRun conf info steps s = .ok s' ∧ Fine.Agree atomic t s'.fine := by
  obtain ⟨u, hu, hobs⟩ :=
    (commutes atomic conf info).foldlM_eq (lt_nprocs_of_same hsteps hsame) hsame s.fine_placed h
  rw [← microRun, microRun_serial, bind_eq_ok] at hu
  obtain ⟨s', hs', hu⟩ := hu
  cases hu
  exact ⟨s', hs', Fine.erase_eq_iff.mp hobs⟩

theorem exists_interleaved (hsteps : ∀ w ∈ steps, w.idproc < conf.nprocs)
    (hsame : SamePrograms Micro.idproc micros (steps.flatMap WriteStep.statements))
    (h : processRun conf info steps s = .ok s') :
    ∃ t, microRun atomic conf info micros s.fine = .ok t ∧ Fine.Agree atomic t s'.fine := by
  have hu : microRun atomic conf info (steps.flatMap WriteStep.statements) s.fine = .ok s'.fine := by
    rw [microRun_serial, h, bind_ok]
  have hserial : ∀ a ∈ steps.flatMap WriteStep.statements, a.idproc < conf.nprocs :=
    fun a ha => lt_nprocs_of_same hsteps hsame a (hsame.mem_iff.mpr ha)
  obtain ⟨t, ht, hobs⟩ := (commutes atomic conf info).foldlM_eq hserial hsame.symm s.fine_placed hu
  exact ⟨t, ht, Fine.erase_eq_iff.mp hobs.symm⟩

end Interleaved

/-- Two writes, a statement of each in turn. -/
def WriteStep.inTurn (w w' : WriteStep) : List Micro :=
  (List.zipWith (fun a b => [a, b]) w.statements w'.statements).flatten

theorem WriteStep.inTurn_same (w w' : WriteStep) (h : w.idproc ≠ w'.idproc) :
    SamePrograms Micro.idproc (w.inTurn w') ([w, w'].flatMap WriteStep.statements) := by
  intro i
  by_cases hi : w.idproc = i
  · have hi' : w'.idproc ≠ i := fun hi' => h (hi.trans hi'.symm)
    simp [program, WriteStep.inTurn, WriteStep.statements, hi, hi']
  · by_cases hi' : w'.idproc = i
    · simp [program, WriteStep.inTurn, WriteStep.statements, hi, hi']
    · simp [program, WriteStep.inTurn, WriteStep.statements, hi, hi']

/-- **It does not matter when the processes come to their statements.** -/
theorem statements_atomic {steps : List WriteStep} {micros : List Micro} {s : Sys}
    (hsteps : ∀ w ∈ steps, w.idproc < conf.nprocs)
    (hsame : SamePrograms Micro.idproc micros (steps.flatMap WriteStep.statements)) :
    (∀ t, microRun atomic conf info micros s.fine = .ok t →
      ∃ s', processRun conf info steps s = .ok s' ∧ Fine.Agree atomic t s'.fine) ∧
    ∀ s', processRun conf info steps s = .ok s' →
      ∃ t, microRun atomic conf info micros s.fine = .ok t ∧ Fine.Agree atomic t s'.fine :=
  ⟨fun _ => exists_serial hsteps hsame, fun _ => exists_interleaved hsteps hsame⟩

theorem twoFiles_inTurn : ∃ g₀ info s t s',
    initializeGenerator twoFiles.generator (some plainDistribution) plainDraws = .ok (g₀, some info, 1) ∧
      microRun true twoFiles info (WriteStep.inTurn ⟨1, ⟨0, 3, 9⟩, [], true⟩ ⟨0, ⟨1, 2, 3⟩, [], true⟩) s.fine = .ok t ∧
      processRun twoFiles info [⟨1, ⟨0, 3, 9⟩, [], true⟩, ⟨0, ⟨1, 2, 3⟩, [], true⟩] s = .ok s' ∧
      Fine.Agree true t s'.fine := by
  obtain ⟨g₀, info, h, hg⟩ := exists_of_loadsWith (x := initializeGenerator twoFiles.generator
    (some plainDistribution) plainDraws) (T := fun g info =>
      okWith (launch twoFiles (fun _ => []) (sampleSys twoFiles info g)) fun s =>
        okWith (processRun twoFiles info [⟨1, ⟨0, 3, 9⟩, [], true⟩, ⟨0, ⟨1, 2, 3⟩, [], true⟩] s) fun _ => true)
    (by decide +kernel)
  obtain ⟨s, -, hrun⟩ := exists_of_okWith hg
  obtain ⟨s', hs', -⟩ := exists_of_okWith hrun
  obtain ⟨t, ht, hagree⟩ := (statements_atomic (by decide)
    (WriteStep.inTurn_same ⟨1, ⟨0, 3, 9⟩, [], true⟩ ⟨0, ⟨1, 2, 3⟩, [], true⟩ (by decide))).2 s' hs'
  exact ⟨g₀, info, s, t, s', h, ht, hs', hagree⟩

/-! ### Integrity -/

/-- The state of a run when the processes are done. -/
def Fine.sys (t : Fine) : Sys := ⟨t.files, t.shared, t.gen, fun p => (t.workers p).proc⟩

theorem Fine.Agree.runInv {g₀ : Generator} {s' : Sys} {t : Fine} (h : Fine.Agree atomic t s'.fine)
    (hs : RunInv g₀ conf s') : RunInv g₀ conf t.sys := by
  refine ⟨?_, fun p => ?_, fun i hi k hk => (hs.stored i hi k hk).congr h.contentMap h.files⟩
  · have hgen : t.gen = s'.gen := h.gen
    show Generator.Reach g₀ t.gen
    rw [hgen]
    exact hs.parent
  · have hgen : (t.workers p).proc.gen = (s'.procs p).gen := (h.workers p).gen
    show Generator.Reach g₀ (t.workers p).proc.gen
    rw [hgen]
    exact hs.procs p

/-- **No false integrity error, whenever the processes come to their statements.** -/
theorem interleaved_integrity {g₀ g' : Generator} {file : Option (List Char)} {ld : LoadDraws} {files : FileId → File}
    {old : ℕ → ℕ} {oldMap : ℕ → BlockInfo} {procs : ℕ → Proc} {pdraws : ℕ → ℕ → Generator.Draw}
    {raws : ℕ → List ℕ} {steps : List WriteStep} {micros : List Micro} {cdraws : ℕ → ℕ → CheckDraw} {fresh : ℕ → Mem}
    {s₁ s₂ : Sys} {t : Fine} {errors : ℤ} {report : List ReportEntry}
    (hload : initializeGenerator conf.generator file ld = .ok (g₀, some info, 1)) (hfirst : ZeroLineFirst g₀)
    (hsum : g₀.blockCounts.sum < 2 ^ 32) (hdvd : conf.blockSize ∣ conf.filesize) (hint : conf.integrity ≠ 0)
    (hpop : populate conf info pdraws ⟨files, loadmmap conf info old oldMap, g₀, procs⟩ = .ok s₁)
    (hlaunch : launch conf raws s₁ = .ok s₂) (hsteps : ∀ w ∈ steps, w.idproc < conf.writers)
    (hsame : SamePrograms Micro.idproc micros (steps.flatMap WriteStep.statements))
    (hrun : microRun false conf info micros s₂.fine = .ok t)
    (hcheck : staticCheck conf info cdraws fresh t.sys = .ok (g', errors, report)) :
    errors = 0 ∧ report = [] ∧
      ∀ i < conf.trackerRows, ∀ k < conf.totblocks, ∃ e, t.shared.contentTracker conf i k = .ok e ∧
        ∀ g raw g'' r, g.frame = g₀.frame → getBlockContent g e raw = .ok (g'', r) →
          g''.contentAt r conf.blockSize =
            .ok (read (t.files (conf.fileOf i)).byte (k * conf.blockSize) conf.blockSize) := by
  obtain ⟨hg, hbs⟩ := loaded_of_initialize hload
  have hle : g₀.blockSize ≤ conf.blockSize := hbs.le.trans (Nat.mod_le _ _)
  obtain ⟨s₃, hs₃, hagree⟩ :=
    exists_serial (fun w hw => lt_of_lt_of_le (hsteps w hw) conf.writers_le) hsame hrun
  have hinv : RunInv g₀ conf t.sys :=
    hagree.runInv (processRun_runInv hint hsteps (populate_runInv hint hdvd .refl hpop hlaunch) hs₃)
  obtain ⟨herrors, hreport⟩ := hinv.staticCheck_clean hg hle hfirst hsum hdvd hcheck
  refine ⟨herrors, hreport, fun i hi k hk => ?_⟩
  have hstored := hinv.stored i hi k hk
  obtain ⟨e, -, he, -⟩ := id hstored
  exact ⟨e, he, fun g raw g'' r hf h => hg.getBlockContent_of_stored hle hfirst hsum hstored he hf h⟩

theorem plainDistribution_interleaved : ∃ g₀ info s₁ s₂ t g' errors report,
    initializeGenerator twoFiles.generator (some plainDistribution) plainDraws = .ok (g₀, some info, 1) ∧
      populate twoFiles info (fun _ k => ⟨k, k, k⟩) (sampleSys twoFiles info g₀) = .ok s₁ ∧
      launch twoFiles (fun _ => []) s₁ = .ok s₂ ∧
      microRun false twoFiles info (WriteStep.inTurn ⟨1, ⟨0, 3, 9⟩, [], true⟩ ⟨0, ⟨1, 2, 3⟩, [], true⟩) s₂.fine =
        .ok t ∧
      staticCheck twoFiles info (fun _ _ => ⟨0, 0⟩) (fun _ _ => 0) t.sys = .ok (g', errors, report) ∧
      errors = 0 := by
  obtain ⟨g₀, info, h, hg⟩ := exists_of_loadsWith (x := initializeGenerator twoFiles.generator
    (some plainDistribution) plainDraws) (T := fun g info => g.blockCounts.sum = 12 ∧
      g.linhas.map Linha.nrCopies = [0, 1] ∧ g.totalUniqueBlocks = 12 ∧
      okWith (populate twoFiles info (fun _ k => ⟨k, k, k⟩) (sampleSys twoFiles info g)) fun s₁ =>
        okWith (launch twoFiles (fun _ => []) s₁) fun s₂ =>
          okWith (microRun false twoFiles info
            (WriteStep.inTurn ⟨1, ⟨0, 3, 9⟩, [], true⟩ ⟨0, ⟨1, 2, 3⟩, [], true⟩) s₂.fine) fun t =>
              t.shared.contentMap.all fun e => e.blockId < 1000) (by decide +kernel)
  obtain ⟨hsum, hcopies, htotal, hrun⟩ := of_decide_eq_true hg
  obtain ⟨s₁, hpop, hrun⟩ := exists_of_okWith hrun
  obtain ⟨s₂, hlaunch, hrun⟩ := exists_of_okWith hrun
  obtain ⟨t, ht, hmap⟩ := exists_of_okWith hrun
  have hfirst : ZeroLineFirst g₀ := .of_copies hcopies (by decide)
  have hsteps : ∀ w ∈ ([⟨1, ⟨0, 3, 9⟩, [], true⟩, ⟨0, ⟨1, 2, 3⟩, [], true⟩] : List WriteStep),
      w.idproc < twoFiles.writers := by
    intro w hw
    simp only [List.mem_cons, List.not_mem_nil, or_false] at hw
    rcases hw with rfl | rfl <;> decide
  have hsame := WriteStep.inTurn_same ⟨1, ⟨0, 3, 9⟩, [], true⟩ ⟨0, ⟨1, 2, 3⟩, [], true⟩ (by decide)
  have hdvd : twoFiles.blockSize ∣ twoFiles.filesize := by decide
  obtain ⟨hl, hbs⟩ := loaded_of_initialize h
  obtain ⟨s₃, hs₃, hagree⟩ :=
    exists_serial (fun w hw => lt_of_lt_of_le (hsteps w hw) twoFiles.writers_le) hsame ht
  have hinv : RunInv g₀ twoFiles t.sys :=
    hagree.runInv (processRun_runInv (by decide) hsteps (populate_runInv (by decide) hdvd .refl hpop hlaunch) hs₃)
  have hdrawn : ∀ i k e, t.shared.contentTracker twoFiles i k = .ok e → g₀.drawn e.blockId 0 ≠ uintMax := by
    intro i k e he
    have hmem := List.all_eq_true.mp hmap e (List.mem_of_getElem? (contentTracker_eq_ok.mp he))
    have hlt : e.blockId < 1000 := of_decide_eq_true hmem
    rw [Generator.drawn, htotal, Nat.zero_mod]
    unfold uintMax
    split <;> omega
  obtain ⟨⟨g', errors, report⟩, hcheck⟩ : ∃ x,
      staticCheck twoFiles info (fun _ _ => ⟨0, 0⟩) (fun _ _ => 0) t.sys = .ok x :=
    hinv.staticCheck_ok hl (by rw [hbs]; decide) hfirst (by omega) hdvd hdrawn
  exact ⟨g₀, info, s₁, s₂, t, g', errors, report, h, hpop, hlaunch, ht, hcheck,
    (interleaved_integrity h hfirst (by omega) hdvd (by decide) hpop hlaunch hsteps hsame ht hcheck).1⟩

/-! ### Counters -/

/-- The counter `i`. -/
def Fine.counter (s : Fine) (i : ℕ) : ℕ := s.shared.statistics.getD i 0

/-- A process is about to store the successor of `l` in counter `i`. -/
def Worker.Carries (conf : Conf) (info : DuplicatesInfo) (k : Worker) (i l : ℕ) : Prop :=
  ∃ d, k.pending = some d ∧ k.loaded = some l ∧ counterOf conf info d.infoWrite = .ok (some i)

def Statement.isStore : Statement → Bool
  | .store => true
  | _ => false

section LockStep

variable {p : ℕ} {k : Worker} {m : Common} {r : Worker × Common} {st : Statement}

theorem store_cases (h : Statement.store.run atomic conf info p k m = .ok r) :
    ∃ d, k.pending = some d ∧ ((counterOf conf info d.infoWrite = .ok none ∧ r = (k, m)) ∨
      ∃ i n v, counterOf conf info d.infoWrite = .ok (some i) ∧ k.loaded = some n ∧
        m.shared.statistics[i]? = some v ∧ r = ({ k with loaded := none }, { m with shared := { m.shared with
          statistics := m.shared.statistics.set i (u64 ((if atomic then v else n) + 1)) } })) := by
  obtain ⟨d, hd⟩ := exists_pending (by simp) h
  obtain ⟨q, pending, loaded⟩ := k
  obtain rfl : pending = some d := hd
  refine ⟨d, rfl, ?_⟩
  simp only [Statement.run, bind_eq_ok] at h
  obtain ⟨slot, hslot, h⟩ := h
  cases slot with
  | none =>
    cases h
    exact .inl ⟨hslot, rfl⟩
  | some i =>
    cases loaded with
    | none => cases h
    | some n =>
    cases hi : m.shared.statistics[i]? with
    | none => simp only [hi] at h; cases h
    | some v =>
    simp only [hi] at h
    cases h
    exact .inr ⟨i, n, v, hslot, rfl, hi, rfl⟩

/-- The counters are left alone, and what a process carries it had, or has just loaded. -/
structure Quiet (conf : Conf) (info : DuplicatesInfo) (k : Worker) (m : Common) (r : Worker × Common) : Prop where
  statistics : r.2.shared.statistics = m.shared.statistics
  idle : r.1.pending = none → r.1.loaded = none
  carries : ∀ i l, r.1.Carries conf info i l → k.Carries conf info i l ∨ l = m.shared.statistics.getD i 0

theorem Quiet.of_eq {k' : Worker} {m' : Common} (hidle : k.pending = none → k.loaded = none)
    (hpending : k'.pending = k.pending) (hloaded : k'.loaded = k.loaded)
    (hstat : m'.shared.statistics = m.shared.statistics) : Quiet conf info k m (k', m') where
  statistics := hstat
  idle h := by
    rw [hloaded]
    exact hidle (hpending ▸ h)
  carries := by
    rintro i l ⟨d, hd, hl, hslot⟩
    exact .inl ⟨d, hpending ▸ hd, hloaded ▸ hl, hslot⟩

theorem load_quiet (hidle : k.pending = none → k.loaded = none)
    (h : Statement.load.run atomic conf info p k m = .ok r) : Quiet conf info k m r := by
  obtain ⟨d, hd⟩ := exists_pending (by simp) h
  obtain ⟨q, pending, loaded⟩ := k
  obtain rfl : pending = some d := hd
  simp only [Statement.run, bind_eq_ok] at h
  obtain ⟨slot, hslot, h⟩ := h
  cases slot with
  | none =>
    cases h
    exact .of_eq hidle rfl rfl rfl
  | some i =>
    cases hi : m.shared.statistics[i]? with
    | none => simp only [hi] at h; cases h
    | some n =>
      simp only [hi] at h
      cases h
      refine ⟨rfl, fun hnone => absurd hnone (Option.some_ne_none _), ?_⟩
      rintro j l ⟨d', hd', hl, hslot'⟩
      cases hd'
      cases hl
      cases hslot.symm.trans hslot'
      rw [List.getD_eq_getElem?_getD, hi]
      exact .inr rfl

theorem test_quiet (hidle : k.pending = none → k.loaded = none)
    (h : Statement.test.run atomic conf info p k m = .ok r) : Quiet conf info k m r := by
  obtain ⟨d, hd⟩ := exists_pending (by simp) h
  obtain ⟨q, pending, loaded⟩ := k
  obtain rfl : pending = some d := hd
  simp only [Statement.run, bind_eq_ok] at h
  obtain ⟨slot, -, h⟩ := h
  cases slot with
  | none =>
    cases h
    exact .of_eq hidle rfl rfl rfl
  | some i =>
    simp only at h
    split at h
    · split at h
      · cases h
      · split at h <;> cases h <;> exact .of_eq hidle rfl rfl rfl
    · cases h
      exact .of_eq hidle rfl rfl rfl

/-- The other statements are quiet. -/
theorem quiet_of_not_store (hst : st.isStore = false) (hidle : k.pending = none → k.loaded = none)
    (h : st.run atomic conf info p k m = .ok r) : Quiet conf info k m r := by
  obtain ⟨q, pending, loaded⟩ := k
  cases pending with
  | none =>
    cases st with
    | request draw raws =>
      simp only [Statement.run, bind_eq_ok] at h
      obtain ⟨_, -, _, -, h⟩ := h
      cases h
      refine ⟨rfl, fun hnone => absurd hnone (Option.some_ne_none _), ?_⟩
      rintro i l ⟨d, -, hl, -⟩
      exact absurd ((hidle rfl).symm.trans hl).symm (Option.some_ne_none _)
    | _ => cases h
  | some d =>
  cases st with
  | request draw raws => cases h
  | store => cases hst
  | load => exact load_quiet hidle h
  | test => exact test_quiet hidle h
  | access =>
    simp only [Statement.run, bind_eq_ok] at h
    obtain ⟨_, -, h⟩ := h
    cases h
    exact .of_eq hidle rfl rfl rfl
  | pwrite =>
    simp only [Statement.run, bind_eq_ok] at h
    obtain ⟨_, -, h⟩ := h
    cases h
    exact .of_eq hidle rfl rfl rfl
  | track f =>
    simp only [Statement.run] at h
    split at h
    · cases h
      exact .of_eq hidle rfl rfl rfl
    · split at h <;> cases h
      exact .of_eq hidle rfl rfl rfl
  | finish measured =>
    cases h
    refine ⟨rfl, fun _ => rfl, ?_⟩
    rintro i l ⟨d, hd, -, -⟩
    cases hd

/-- Whether increments are atomic matters to the counters only. -/
theorem Statement.run_of_atomic (h : st.run true conf info p k m = .ok r) :
    ∃ r', st.run false conf info p k m = .ok r' ∧ r'.1 = r.1 ∧ r'.2.files = r.2.files ∧
      r'.2.shared.contentMap = r.2.shared.contentMap ∧
      r'.2.shared.statistics.length = r.2.shared.statistics.length := by
  cases hst : st.isStore with
  | false =>
    refine ⟨r, ?_, rfl, rfl, rfl, rfl⟩
    obtain ⟨q, pending, loaded⟩ := k
    cases pending <;> cases st <;> first | exact h | cases hst
  | true =>
    cases st with
    | store =>
      obtain ⟨d, hd, ⟨hslot, rfl⟩ | ⟨i, n, v, hslot, hl, hi, rfl⟩⟩ := store_cases h
      · refine ⟨(k, m), ?_, rfl, rfl, rfl, rfl⟩
        obtain ⟨q, pending, loaded⟩ := k
        obtain rfl : pending = some d := hd
        simp only [Statement.run, hslot, bind_ok]
      · obtain ⟨q, pending, loaded⟩ := k
        obtain rfl : pending = some d := hd
        obtain rfl : loaded = some n := hl
        refine ⟨(⟨q, some d, none⟩, { m with
          shared := { m.shared with statistics := m.shared.statistics.set i (u64 (n + 1)) } }), ?_, rfl, rfl, rfl, ?_⟩
        · simp only [Statement.run, hslot, bind_ok, hi]
          rfl
        · simp only [List.length_set]
    | _ => cases hst

/-- A run with increments that are a load and a store, next to one with atomic increments: after `c` stores no counter
has fallen below what it was, nor is it ahead, and one that has moved in the second run has moved in the first. -/
structure LockStep (conf : Conf) (info : DuplicatesInfo) (s₀ : Fine) (c : ℕ) (s s' : Fine) : Prop where
  agree : Fine.Agree false s s'
  length : s.shared.statistics.length = s₀.shared.statistics.length
  least : ∀ i, s₀.counter i ≤ s.counter i
  behind : ∀ i, s.counter i ≤ s'.counter i
  most : ∀ i, s'.counter i ≤ s₀.counter i + c
  moved : ∀ i, s₀.counter i < s'.counter i → s₀.counter i < s.counter i
  carried : ∀ p i l, (s.workers p).Carries conf info i l → s₀.counter i ≤ l ∧ l ≤ s'.counter i
  idle : ∀ p, (s.workers p).pending = none → (s.workers p).loaded = none

variable {s₀ s s' t t' : Fine} {c : ℕ} {a : Micro}

theorem Fine.Agree.trans {u : Fine} (h : Fine.Agree atomic s t) (h' : Fine.Agree atomic t u) : Fine.Agree atomic s u :=
  Fine.erase_eq_iff.mp ((Fine.erase_eq_iff.mpr h).trans (Fine.erase_eq_iff.mpr h'))

/-- What a process does next to one that does it atomically. -/
theorem microStep_agree (hs : s.Placed conf) (ha : a.idproc < conf.nprocs) (hagree : Fine.Agree false s s')
    (h : microStep false conf info s a = .ok t) (h' : microStep true conf info s' a = .ok t') :
    Fine.Agree false t t' := by
  obtain ⟨u, hu, hagree₁⟩ := microStep_respects hs ha hagree h
  obtain ⟨r', hr', rfl⟩ := microStep_eq_ok.mp h'
  obtain ⟨r, hr, hk, hfiles, hmap, hlen⟩ := Statement.run_of_atomic hr'
  rw [microStep_eq_ok.mpr ⟨r, hr, rfl⟩] at hu
  cases hu
  refine hagree₁.trans ⟨hfiles, hmap, rfl, fun p => ?_, hlen, nofun⟩
  rw [hk]
  exact .refl _

theorem getD_set {l : List ℕ} {i v : ℕ} (hi : l[i]? = some v) (x j : ℕ) :
    (l.set i x).getD j 0 = if j = i then x else l.getD j 0 := by
  rw [List.getD_eq_getElem?_getD, List.getD_eq_getElem?_getD]
  by_cases hj : j = i
  · subst hj
    rw [if_pos rfl, List.getElem?_set_self (List.getElem?_eq_some_iff.mp hi).1]
    rfl
  · rw [if_neg hj, List.getElem?_set_ne (Ne.symm hj)]

theorem LockStep.quiet (hc : LockStep conf info s₀ c s s') (hst : a.statement.isStore = false)
    (hagree : Fine.Agree false t t') (h : microStep false conf info s a = .ok t)
    (h' : microStep true conf info s' a = .ok t') : LockStep conf info s₀ c t t' := by
  obtain ⟨r, hr, rfl⟩ := microStep_eq_ok.mp h
  obtain ⟨r', hr', rfl⟩ := microStep_eq_ok.mp h'
  obtain ⟨hstat, hidle, hcarries⟩ := quiet_of_not_store hst (hc.idle _) hr
  have hidle' : (s'.workers a.idproc).pending = none → (s'.workers a.idproc).loaded = none := by
    intro hnone
    have hsame := hc.agree.workers a.idproc
    have hloaded := hsame.loaded
    rw [hc.idle _ (hsame.pending.trans hnone)] at hloaded
    exact Option.not_isSome_iff_eq_none.mp (by rw [← hloaded]; simp)
  obtain ⟨hstat', -, -⟩ := quiet_of_not_store hst hidle' hr'
  have hcounter : ∀ i, Fine.counter ⟨r.2.files, r.2.shared, s.gen, Function.update s.workers a.idproc r.1⟩ i =
      s.counter i := fun i => congrArg (List.getD · i 0) hstat
  have hcounter' : ∀ i, Fine.counter ⟨r'.2.files, r'.2.shared, s'.gen, Function.update s'.workers a.idproc r'.1⟩ i =
      s'.counter i := fun i => congrArg (List.getD · i 0) hstat'
  refine ⟨hagree, by rw [← hc.length]; exact congrArg _ hstat, fun i => ?_, fun i => ?_, fun i => ?_, fun i => ?_,
    fun p i l hl => ?_, fun p hnone => ?_⟩
  · rw [hcounter]
    exact hc.least i
  · rw [hcounter, hcounter']
    exact hc.behind i
  · rw [hcounter']
    exact hc.most i
  · rw [hcounter, hcounter']
    exact hc.moved i
  · rw [hcounter']
    by_cases hp : p = a.idproc
    · subst hp
      simp only [Function.update_self] at hl
      rcases hcarries i l hl with hl | rfl
      · exact hc.carried _ i l hl
      · exact ⟨hc.least i, hc.behind i⟩
    · simp only [Function.update_of_ne hp] at hl
      exact hc.carried p i l hl
  · by_cases hp : p = a.idproc
    · subst hp
      simp only [Function.update_self] at hnone ⊢
      exact hidle hnone
    · simp only [Function.update_of_ne hp] at hnone ⊢
      exact hc.idle p hnone

theorem LockStep.mono {c' : ℕ} (hc : LockStep conf info s₀ c s s') (h : c ≤ c') : LockStep conf info s₀ c' s s' :=
  { hc with most := fun i => le_trans (hc.most i) (Nat.add_le_add_left h _) }

/-- Counter by counter: the one that is stored, and the others. -/
theorem LockStep.counters_store (hc : LockStep conf info s₀ c s s') {i n : ℕ} (hleast : s₀.counter i ≤ n)
    (hbehind : n ≤ s'.counter i) (j : ℕ) : s₀.counter j ≤ (if j = i then n + 1 else s.counter j) ∧
      (if j = i then n + 1 else s.counter j) ≤ (if j = i then s'.counter i + 1 else s'.counter j) ∧
      (if j = i then s'.counter i + 1 else s'.counter j) ≤ s₀.counter j + (c + 1) ∧
      (s₀.counter j < (if j = i then s'.counter i + 1 else s'.counter j) →
        s₀.counter j < (if j = i then n + 1 else s.counter j)) ∧
      s'.counter j ≤ (if j = i then s'.counter i + 1 else s'.counter j) := by
  have hmost := hc.most j
  by_cases hj : j = i
  · subst hj
    simp only [if_true]
    omega
  · simp only [hj, if_false]
    exact ⟨hc.least j, hc.behind j, by omega, hc.moved j, le_rfl⟩

theorem LockStep.store (hc : LockStep conf info s₀ c s s') (hst : a.statement = .store)
    (hwrap : ∀ i < s₀.shared.statistics.length, s₀.counter i + c + 1 < 2 ^ 64)
    (hagree : Fine.Agree false t t') (h : microStep false conf info s a = .ok t)
    (h' : microStep true conf info s' a = .ok t') : LockStep conf info s₀ (c + 1) t t' := by
  obtain ⟨r, hr, rfl⟩ := microStep_eq_ok.mp h
  obtain ⟨r', hr', rfl⟩ := microStep_eq_ok.mp h'
  rw [hst] at hr hr'
  obtain ⟨d, hd, hcase⟩ := store_cases hr
  obtain ⟨d', hd', hcase'⟩ := store_cases hr'
  obtain rfl : d = d' := Option.some.inj (hd.symm.trans ((hc.agree.workers _).pending.trans hd'))
  rcases hcase with ⟨hslot, rfl⟩ | ⟨i, n, v, hslot, hl, hi, rfl⟩ <;>
    rcases hcase' with ⟨hslot', rfl⟩ | ⟨i', n', v', hslot', hl', hi', rfl⟩ <;>
    cases hslot.symm.trans hslot'
  · -- blocks are not counted
    simp only [Function.update_eq_self]
    exact hc.mono (Nat.le_succ c)
  · obtain ⟨hleast, hbehind⟩ := hc.carried a.idproc i n ⟨d, hd, hl, hslot⟩
    have hv' : s'.counter i = v' := by rw [Fine.counter, List.getD_eq_getElem?_getD, hi']; rfl
    have hlt : i < s₀.shared.statistics.length := hc.length ▸ (List.getElem?_eq_some_iff.mp hi).1
    have hmost := hc.most i
    have hsmall := hwrap i hlt
    have hn : u64 (n + 1) = n + 1 := Nat.mod_eq_of_lt (by omega)
    have hnv : u64 (v' + 1) = v' + 1 := Nat.mod_eq_of_lt (by omega)
    have hcounter : ∀ j (files : FileId → File) (workers : ℕ → Worker),
        Fine.counter ⟨files, { s.shared with statistics := s.shared.statistics.set i (n + 1) }, s.gen, workers⟩ j =
          if j = i then n + 1 else s.counter j := fun j _ _ => getD_set hi _ j
    have hcounter' : ∀ j (files : FileId → File) (workers : ℕ → Worker),
        Fine.counter ⟨files, { s'.shared with statistics := s'.shared.statistics.set i (v' + 1) }, s'.gen, workers⟩ j =
          if j = i then v' + 1 else s'.counter j := fun j _ _ => getD_set hi' _ j
    simp only [if_true, Bool.false_eq_true, if_false, hn, hnv] at hagree ⊢
    have hset := hc.counters_store hleast hbehind
    rw [hv'] at hset
    refine ⟨hagree, ?_, fun j => ?_, fun j => ?_, fun j => ?_, fun j => ?_, fun p j l hl => ?_, fun p hnone => ?_⟩
    · simp only [List.length_set]
      exact hc.length
    · rw [hcounter]
      exact (hset j).1
    · rw [hcounter, hcounter']
      exact (hset j).2.1
    · rw [hcounter']
      exact (hset j).2.2.1
    · rw [hcounter, hcounter']
      exact (hset j).2.2.2.1
    · rw [hcounter']
      by_cases hp : p = a.idproc
      · subst hp
        obtain ⟨_, -, hl, -⟩ := hl
        simp only [Function.update_self] at hl
        cases hl
      · simp only [Function.update_of_ne hp] at hl
        obtain ⟨hlow, hhigh⟩ := hc.carried p j l hl
        exact ⟨hlow, hhigh.trans (hset j).2.2.2.2⟩
    · by_cases hp : p = a.idproc
      · subst hp
        simp only [Function.update_self]
      · simp only [Function.update_of_ne hp] at hnone ⊢
        exact hc.idle p hnone

theorem LockStep.step (hc : LockStep conf info s₀ c s s') (hs : s.Placed conf) (ha : a.idproc < conf.nprocs)
    (hwrap : ∀ i < s₀.shared.statistics.length, s₀.counter i + (c + if a.statement.isStore then 1 else 0) < 2 ^ 64)
    (h : microStep false conf info s a = .ok t) (h' : microStep true conf info s' a = .ok t') :
    LockStep conf info s₀ (c + if a.statement.isStore then 1 else 0) t t' := by
  have hagree := microStep_agree hs ha hc.agree h h'
  cases hst : a.statement.isStore with
  | false => exact hc.quiet hst hagree h h'
  | true =>
    have hstore : a.statement = .store := by
      cases ha : a.statement with
      | store => rfl
      | _ => rw [ha] at hst; cases hst
    rw [hst] at hwrap
    exact hc.store hstore hwrap hagree h h'

theorem LockStep.run {micros : List Micro} (hmicros : ∀ a ∈ micros, a.idproc < conf.nprocs)
    (hc : LockStep conf info s₀ c s s') (hs : s.Placed conf)
    (hwrap : ∀ i < s₀.shared.statistics.length,
      s₀.counter i + (c + micros.countP fun a => a.statement.isStore) < 2 ^ 64)
    (h : microRun false conf info micros s = .ok t) (h' : microRun true conf info micros s' = .ok t') :
    LockStep conf info s₀ (c + micros.countP fun a => a.statement.isStore) t t' := by
  induction micros generalizing c s s' with
  | nil =>
    cases foldlM_nil_eq_ok.mp h
    cases foldlM_nil_eq_ok.mp h'
    exact hc
  | cons a micros ih =>
    obtain ⟨u, hu, h⟩ := foldlM_cons_eq_ok.mp h
    obtain ⟨u', hu', h'⟩ := foldlM_cons_eq_ok.mp h'
    have ha := hmicros a List.mem_cons_self
    rw [List.countP_cons, Nat.add_comm (List.countP _ micros), ← Nat.add_assoc] at hwrap ⊢
    exact ih (fun b hb => hmicros b (List.mem_cons_of_mem _ hb))
      (hc.step hs ha (fun i hi => lt_of_le_of_lt (Nat.add_le_add_left (Nat.le_add_right _ _) _) (hwrap i hi)) hu hu')
      (microStep_placed hs ha hu) hwrap h h'

theorem countP_isStore {steps : List WriteStep} {micros : List Micro}
    (hsame : SamePrograms Micro.idproc micros (steps.flatMap WriteStep.statements)) :
    micros.countP (fun a => a.statement.isStore) = steps.length := by
  have hserial : ∀ steps : List WriteStep,
      (steps.flatMap WriteStep.statements).countP (fun a => a.statement.isStore) = steps.length := by
    intro steps
    induction steps with
    | nil => rfl
    | cons w steps ih =>
      rw [List.flatMap_cons, List.countP_append, ih, List.length_cons, Nat.add_comm]
      rfl
  rw [hsame.perm.countP_eq, hserial]

/-- **Of a counter increments can be lost, but not all of them.** -/
theorem statements_count {steps : List WriteStep} {micros : List Micro} {s s' : Sys}
    (hsteps : ∀ w ∈ steps, w.idproc < conf.nprocs)
    (hsame : SamePrograms Micro.idproc micros (steps.flatMap WriteStep.statements))
    (hwrap : ∀ n ∈ s.shared.statistics, n + steps.length < 2 ^ 64)
    (h : microRun false conf info micros s.fine = .ok t) (h' : processRun conf info steps s = .ok s') :
    ∀ i n₀ n n' : ℕ, s.shared.statistics[i]? = some n₀ → t.shared.statistics[i]? = some n →
      s'.shared.statistics[i]? = some n' → n₀ ≤ n ∧ n ≤ n' ∧ (n₀ < n' → n₀ < n) := by
  obtain ⟨t', ht', hagree⟩ : ∃ t', microRun true conf info micros s.fine = .ok t' ∧ Fine.Agree true t' s'.fine :=
    exists_interleaved hsteps hsame h'
  have hlen := countP_isStore hsame
  have hstart : LockStep conf info s.fine 0 s.fine s.fine := by
    refine ⟨⟨rfl, rfl, rfl, fun _ => .refl _, rfl, nofun⟩, rfl, fun _ => Nat.le_refl _, fun _ => Nat.le_refl _,
      fun _ => Nat.le_refl _, fun _ h => h, ?_, fun _ _ => rfl⟩
    rintro p i l ⟨d, hd, -⟩
    cases hd
  have hcounted := hstart.run (lt_nprocs_of_same hsteps hsame) s.fine_placed (fun i hi => by
    rw [hlen, Nat.zero_add, Fine.counter, List.getD_eq_getElem?_getD, List.getElem?_eq_getElem hi]
    exact hwrap _ (List.getElem_mem hi)) h ht'
  intro i n₀ n n' hn₀ hn hn'
  have hvalue : ∀ {u : Fine} {x : ℕ}, u.shared.statistics[i]? = some x → u.counter i = x := by
    intro u x hx
    rw [Fine.counter, List.getD_eq_getElem?_getD, hx]
    rfl
  have hn₀ : s.fine.counter i = n₀ := hvalue hn₀
  have hn' : t'.counter i = n' := hvalue (by rw [hagree.exact rfl]; exact hn')
  rw [← hn₀, ← hvalue hn, ← hn']
  exact ⟨hcounted.least i, hcounted.behind i, hcounted.moved i⟩

/-- Two blocks without copies are written, and one is counted. -/
theorem loggedFiles_inTurn : ∃ g₀ info s t s' n₀ n n',
    initializeGenerator loggedFiles.generator (some plainDistribution) plainDraws = .ok (g₀, some info, 1) ∧
      microRun false loggedFiles info (WriteStep.inTurn ⟨1, ⟨0, 3, 9⟩, [], true⟩ ⟨0, ⟨0, 2, 3⟩, [], true⟩) s.fine =
        .ok t ∧
      processRun loggedFiles info [⟨1, ⟨0, 3, 9⟩, [], true⟩, ⟨0, ⟨0, 2, 3⟩, [], true⟩] s = .ok s' ∧
      s.shared.statistics[info.duplicatedBlocks]? = some n₀ ∧ t.shared.statistics[info.duplicatedBlocks]? = some n ∧
      s'.shared.statistics[info.duplicatedBlocks]? = some n' ∧ n + 1 = n' ∧
      n₀ ≤ n ∧ n ≤ n' ∧ (n₀ < n' → n₀ < n) := by
  obtain ⟨g₀, info, h, hg⟩ := exists_of_loadsWith (x := initializeGenerator loggedFiles.generator
    (some plainDistribution) plainDraws) (T := fun g info =>
      okWith (launch loggedFiles (fun _ => []) (sampleSys loggedFiles info g)) fun s =>
        s.shared.statistics.all (fun n => n < 1000) ∧ s.shared.statistics[info.duplicatedBlocks]? = some 0 ∧
        okWith (microRun false loggedFiles info
          (WriteStep.inTurn ⟨1, ⟨0, 3, 9⟩, [], true⟩ ⟨0, ⟨0, 2, 3⟩, [], true⟩) s.fine)
          (fun t => t.shared.statistics[info.duplicatedBlocks]? = some 1) ∧
        okWith (processRun loggedFiles info [⟨1, ⟨0, 3, 9⟩, [], true⟩, ⟨0, ⟨0, 2, 3⟩, [], true⟩] s)
          fun s' => s'.shared.statistics[info.duplicatedBlocks]? = some 2) (by decide +kernel)
  obtain ⟨s, -, hrun⟩ := exists_of_okWith hg
  obtain ⟨hsmall, hn₀, hmicro, hserial⟩ := of_decide_eq_true hrun
  obtain ⟨t, ht, hn⟩ := exists_of_okWith hmicro
  obtain ⟨s', hs', hn'⟩ := exists_of_okWith hserial
  have hn := of_decide_eq_true hn
  have hn' := of_decide_eq_true hn'
  have hwrap : ∀ n ∈ s.shared.statistics, n + 2 < 2 ^ 64 := by
    intro n hn
    have hlt : n < 1000 := of_decide_eq_true (List.all_eq_true.mp hsmall n hn)
    omega
  exact ⟨g₀, info, s, t, s', 0, 1, 2, h, ht, hs', hn₀, hn, hn', rfl, statements_count (by decide)
    (WriteStep.inTurn_same ⟨1, ⟨0, 3, 9⟩, [], true⟩ ⟨0, ⟨0, 2, 3⟩, [], true⟩ (by decide))
    hwrap ht hs' _ 0 1 2 hn₀ hn hn'⟩

end LockStep

end Dedisbench
