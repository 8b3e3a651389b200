import Dedisbench.Bench.Config
import Mathlib.Data.List.Nodup
import Mathlib.Data.List.Pairwise
import Mathlib.Data.List.Perm.Basic
import Mathlib.Data.List.TakeWhile

/-!
# The order of the options

Every option sets fields of its own, and the configuration file others.  The order shows in three places all the
same: `-w` and `-r` are refused behind `-m` but not before it, and `config_handler` reads two fields of the options, so
that it matters what comes before `-f`.  `mainConf_eq_ok` is what `main` makes of a command line, and
`optionOrder_iff` says for which command lines the order is free.
-/

namespace Dedisbench

open ExceptRun

/-! ### What an option sets -/

/-- What an option sets, whether or not it is allowed. -/
def NecessaryConfs.set (conf : NecessaryConfs) : Opt → NecessaryConfs
  | .p => { conf with testtype := some .peak }
  | .n arg => conf.setRatio arg
  | .w => { conf with iotype := some .write }
  | .r => { conf with iotype := some .read }
  | .m => { conf with mixedIO := true }
  | .t arg => { conf with flagTerminationTime := true, timeToRun := atoi arg }
  | .s arg => { conf with numberOps := atoll arg, flagTerminationSize := true }
  | .f _ => conf

/-- What the options set together. -/
def given (opts : List Opt) : NecessaryConfs := opts.foldl NecessaryConfs.set .init

/-- The option is refused. -/
def Blocked (conf : NecessaryConfs) : Opt → Prop
  | .p => conf.testtype = some .nominal
  | .n _ => conf.testtype = some .peak
  | .w => conf.iotype = some .read ∨ conf.mixedIO = true
  | .r => conf.iotype = some .write ∨ conf.mixedIO = true
  | _ => False

/-- The second option is refused behind the first. -/
def Clash : Opt → Opt → Prop
  | .n _, .p => True
  | .p, .n _ => True
  | .r, .w => True
  | .m, .w => True
  | .w, .r => True
  | .m, .r => True
  | _, _ => False

/-- An option for the configuration file. -/
def Opt.IsFile (o : Opt) : Prop := ∃ arg, o = .f arg

/-- No option is refused. -/
def Allowed : NecessaryConfs → List Opt → Prop
  | _, [] => True
  | conf, o :: opts => ¬ Blocked conf o ∧ Allowed (conf.set o) opts

section Set

variable {conf : NecessaryConfs} {opts : List Opt} {o o' : Opt} {arg : List Char}

@[simp] theorem NecessaryConfs.setRatio_testtype : (conf.setRatio arg).testtype = some .nominal := by
  unfold setRatio
  split <;> rfl

@[simp] theorem NecessaryConfs.setRatio_iotype : (conf.setRatio arg).iotype = conf.iotype := by
  unfold setRatio
  split <;> rfl

@[simp] theorem NecessaryConfs.setRatio_mixedIO : NecessaryConfs.mixedIO (conf.setRatio arg) = conf.mixedIO := by
  unfold setRatio
  split <;> rfl

@[simp] theorem NecessaryConfs.setRatio_flagTerminationTime :
    (conf.setRatio arg).flagTerminationTime = conf.flagTerminationTime := by
  unfold setRatio
  split <;> rfl

/-- A field is set by the options that set it. -/
theorem given_mixedIO : NecessaryConfs.mixedIO (given opts) = true ↔ .m ∈ opts := by
  have h := foldl_iff (f := NecessaryConfs.set) (P := fun c => c.mixedIO = true) (C := (· = .m)) (l := opts)
    (fun s a _ => by cases a <;> simp [NecessaryConfs.set]) .init
  simpa [given, NecessaryConfs.init] using h

theorem given_flagTerminationTime : (given opts).flagTerminationTime = true ↔ ∃ arg, .t arg ∈ opts := by
  have h := foldl_iff (f := NecessaryConfs.set) (P := fun c => c.flagTerminationTime = true)
    (C := fun a => ∃ arg, a = .t arg) (l := opts) (fun s a _ => by cases a <;> simp [NecessaryConfs.set]) .init
  rw [given, h]
  simp [NecessaryConfs.init]

theorem given_nominal (hp : .p ∉ opts) : (given opts).testtype = some .nominal ↔ ∃ arg, .n arg ∈ opts := by
  have h := foldl_iff (f := NecessaryConfs.set) (P := fun c => c.testtype = some .nominal)
    (C := fun a => ∃ arg, a = .n arg) (l := opts)
    (fun s a ha => by cases a <;> simp_all [NecessaryConfs.set]) .init
  rw [given, h]
  simp [NecessaryConfs.init]

theorem given_peak (hn : ∀ arg, .n arg ∉ opts) : (given opts).testtype = some .peak ↔ .p ∈ opts := by
  have h := foldl_iff (f := NecessaryConfs.set) (P := fun c => c.testtype = some .peak) (C := (· = .p)) (l := opts)
    (fun s a ha => by cases a <;> simp_all [NecessaryConfs.set]) .init
  simpa [given, NecessaryConfs.init] using h

theorem given_read (hw : .w ∉ opts) : (given opts).iotype = some .read ↔ .r ∈ opts := by
  have h := foldl_iff (f := NecessaryConfs.set) (P := fun c => c.iotype = some .read) (C := (· = .r)) (l := opts)
    (fun s a ha => by cases a <;> simp_all [NecessaryConfs.set]) .init
  simpa [given, NecessaryConfs.init] using h

theorem given_write (hr : .r ∉ opts) : (given opts).iotype = some .write ↔ .w ∈ opts := by
  have h := foldl_iff (f := NecessaryConfs.set) (P := fun c => c.iotype = some .write) (C := (· = .w)) (l := opts)
    (fun s a ha => by cases a <;> simp_all [NecessaryConfs.set]) .init
  simpa [given, NecessaryConfs.init] using h

/-- An option is refused if it clashes with one before it. -/
theorem blocked_given (hletter : ∀ a ∈ opts, a.letter ≠ o.letter) :
    Blocked (given opts) o ↔ ∃ a ∈ opts, Clash a o := by
  have hnot : ∀ a, a.letter = o.letter → a ∉ opts := fun a h hmem => hletter a hmem h
  cases o with
  | p =>
    rw [Blocked, given_nominal (hnot .p rfl)]
    constructor
    · rintro ⟨arg, h⟩
      exact ⟨_, h, trivial⟩
    · rintro ⟨a, ha, hclash⟩
      cases a <;> first | exact ⟨_, ha⟩ | cases hclash
  | n arg =>
    rw [Blocked, given_peak fun arg' => hnot (.n arg') rfl]
    constructor
    · exact fun h => ⟨_, h, trivial⟩
    · rintro ⟨a, ha, hclash⟩
      cases a <;> first | exact ha | cases hclash
  | w =>
    rw [Blocked, given_read (hnot .w rfl), given_mixedIO]
    constructor
    · rintro (h | h) <;> exact ⟨_, h, trivial⟩
    · rintro ⟨a, ha, hclash⟩
      cases a <;> first | exact .inl ha | exact .inr ha | cases hclash
  | r =>
    rw [Blocked, given_write (hnot .r rfl), given_mixedIO]
    constructor
    · rintro (h | h) <;> exact ⟨_, h, trivial⟩
    · rintro ⟨a, ha, hclash⟩
      cases a <;> first | exact .inl ha | exact .inr ha | cases hclash
  | m => exact ⟨fun h => h.elim, fun ⟨a, _, h⟩ => by cases a <;> cases h⟩
  | t arg => exact ⟨fun h => h.elim, fun ⟨a, _, h⟩ => by cases a <;> cases h⟩
  | s arg => exact ⟨fun h => h.elim, fun ⟨a, _, h⟩ => by cases a <;> cases h⟩
  | f arg => exact ⟨fun h => h.elim, fun ⟨a, _, h⟩ => by cases a <;> cases h⟩

theorem allowed_append {opts' : List Opt} :
    Allowed conf (opts ++ opts') ↔ Allowed conf opts ∧ Allowed (opts.foldl NecessaryConfs.set conf) opts' := by
  induction opts generalizing conf with
  | nil => simp [Allowed]
  | cons o opts ih =>
    rw [List.cons_append, Allowed, ih, Allowed, List.foldl_cons, and_assoc]

/-- **No option is refused** if no two of them clash, in the order in which they come. -/
theorem allowed_iff (hnodup : (opts.map Opt.letter).Nodup) :
    Allowed .init opts ↔ opts.Pairwise fun a b => ¬ Clash a b := by
  induction opts using List.reverseRecOn with
  | nil => simp [Allowed]
  | append_singleton opts o ih =>
    rw [List.map_append, List.nodup_append] at hnodup
    have hletter : ∀ a ∈ opts, a.letter ≠ o.letter := fun a ha =>
      hnodup.2.2 _ (List.mem_map_of_mem ha) _ (by simp)
    rw [allowed_append, ih hnodup.1, List.pairwise_append]
    have hblocked := blocked_given hletter
    rw [given] at hblocked
    simp only [Allowed, hblocked, and_true, List.pairwise_singleton, true_and, List.mem_singleton, forall_eq,
      not_exists, not_and]

/-- Two options that come together set different fields. -/
theorem NecessaryConfs.set_comm (hletter : o.letter = o'.letter → o = o') (h : ¬ Clash o o' ∨ ¬ Clash o' o)
    (conf : NecessaryConfs) : (conf.set o).set o' = (conf.set o').set o := by
  by_cases heq : o.letter = o'.letter
  · rw [hletter heq]
  · cases o <;> cases o' <;> first
      | rfl
      | exact absurd rfl heq
      | (simp only [set, setRatio]; split <;> rfl)
      | exact h.elim (fun hc => (hc trivial).elim) fun hc => (hc trivial).elim

/-- What the options set together does not depend on their order. -/
theorem given_perm {opts' : List Opt} (hnodup : (opts.map Opt.letter).Nodup)
    (hclash : ∀ a ∈ opts, ∀ b ∈ opts, ¬ Clash a b ∨ ¬ Clash b a) (h : opts.Perm opts') : given opts = given opts' :=
  h.foldl_eq' (fun a ha b hb conf =>
    (NecessaryConfs.set_comm (fun heq => List.inj_on_of_nodup_map hnodup ha hb heq) (hclash a ha b hb) conf)) _

end Set

/-! ### What the file sets -/

/-- A value that a mixed test does not allow. -/
def IniEntry.OneProcess (e : IniEntry) : Prop := e.key = some .nprocs ∧ atoi e.value = 1

instance : DecidablePred IniEntry.OneProcess := fun e =>
  inferInstanceAs (Decidable (e.key = some .nprocs ∧ atoi e.value = 1))

/-- The ramp-up behind a value, and the cool-down. -/
def IniEntry.start (e : IniEntry) (x : ℤ) : ℤ :=
  if e.key = some .generalResults then ((strtok e.value)[1]?.map atoi).getD x else x

def IniEntry.finish (e : IniEntry) (x : ℤ) : ℤ :=
  if e.key = some .generalResults then ((strtok e.value)[2]?.map atoi).getD x else x

/-- Another ramp-up and cool-down. -/
def OptionalConfs.ramped (o : OptionalConfs) (start finish : ℤ) : OptionalConfs := { o with start, finish }

section File

variable {env : Environment} {nec : NecessaryConfs} {o o' : OptionalConfs} {e : IniEntry} {time mixed : Bool}
  {filename : List Char} {conf : UserConfs} {n : ℕ}

/-- **What `config_handler` does**: it sets fields of the file, and what it reads of the options shows in the ramp-up,
the cool-down and the refusal of a single process. -/
theorem configHandler_eq : configHandler env ⟨nec, o, n⟩ e =
    if e.OneProcess ∧ nec.mixedIO = true then .error .exit
    else (do
      let c ← configHandler env ⟨.init, o.ramped 0 0, 0⟩ e
      .ok ⟨nec, c.toOptionalConfs.ramped (if nec.flagTerminationTime then e.start o.start else o.start)
        (if nec.flagTerminationTime then e.finish o.finish else o.finish), n⟩) := by
  obtain ⟨_, mixed, _, _, _, _, _, _, _, time⟩ := nec
  by_cases hone : e.OneProcess ∧ mixed = true
  · obtain ⟨⟨hkey, h1⟩, rfl⟩ := hone
    rw [if_pos ⟨⟨hkey, h1⟩, rfl⟩]
    simp [configHandler, hkey, h1]
  rw [if_neg hone]
  unfold IniEntry.OneProcess at hone
  unfold configHandler IniEntry.start IniEntry.finish
  revert hone
  cases e.key with
  | none =>
    intro _
    cases time <;> rfl
  | some key =>
    intro hone
    cases key with
    | generalResults =>
      dsimp only
      cases (strtok e.value)[0]? with
      | none => cases time <;> rfl
      | some token =>
        dsimp only
        cases strcpyPath token <;> cases time <;> rfl
    | nprocs =>
      have hnot : ¬ (atoi e.value = 1 ∧ mixed = true) := fun h => hone ⟨⟨rfl, h.1⟩, h.2⟩
      cases time <;> simp [hnot, OptionalConfs.ramped, NecessaryConfs.init, bind_ok]
    | accessType => cases time <;> dsimp only <;> split <;> rfl
    | sync => cases time <;> dsimp only <;> split <;> rfl
    | distResults => cases time <;> dsimp only <;> cases strcpyPath e.value <;> cases env.distdb <;> rfl
    | blocksize => cases time <;> dsimp only <;> cases toUInt64 (atof e.value) <;> rfl
    | seed => cases time <;> dsimp only <;> cases toUInt64 (atof e.value) <;> rfl
    | accessResults => cases time <;> dsimp only <;> cases strcpyPath e.value <;> rfl
    | distfile => cases time <;> dsimp only <;> cases strcpyPath e.value <;> rfl
    | tempfilespath => cases time <;> dsimp only <;> cases strcpyPath e.value <;> rfl
    | rawdevice => cases time <;> dsimp only <;> cases strcpyPath e.value <;> rfl
    | integrity => cases time <;> dsimp only <;> cases strcpyPath e.value <;> rfl
    | _ => cases time <;> rfl

/-- What `config_handler` sets; `time` and `mixed` are the two fields of the options that it reads. -/
def configure (env : Environment) (time mixed : Bool) (o : OptionalConfs) (e : IniEntry) : Exec OptionalConfs := do
  let c ← configHandler env ⟨{ NecessaryConfs.init with flagTerminationTime := time, mixedIO := mixed }, o, 0⟩ e
  .ok c.toOptionalConfs

/-- The values of a configuration file, none if it does not open. -/
def Environment.entries (env : Environment) (filename : List Char) : List IniEntry :=
  match env.file filename with
  | none => []
  | some text => iniEntries text

/-- What the file sets. -/
def fileConfs (env : Environment) (time mixed : Bool) (filename : List Char) (o : OptionalConfs) :
    Exec OptionalConfs :=
  (env.entries filename).foldlM (configure env time mixed) o

theorem configure_eq : configure env time mixed o e =
    if e.OneProcess ∧ mixed = true then .error .exit
    else (do
      let c ← configHandler env ⟨.init, o.ramped 0 0, 0⟩ e
      .ok (c.toOptionalConfs.ramped (if time then e.start o.start else o.start)
        (if time then e.finish o.finish else o.finish))) := by
  rw [configure, configHandler_eq]
  dsimp only
  split
  · rfl
  · cases configHandler env ⟨.init, o.ramped 0 0, 0⟩ e <;> rfl

theorem configHandler_configure : configHandler env ⟨nec, o, n⟩ e = (do
    let o' ← configure env nec.flagTerminationTime nec.mixedIO o e
    .ok ⟨nec, o', n⟩) := by
  rw [configHandler_eq, configure_eq]
  split
  · rfl
  · cases configHandler env ⟨.init, o.ramped 0 0, 0⟩ e <;> rfl

theorem iniParse_eq : iniParse env filename ⟨nec, o, n⟩ = (do
    let o' ← fileConfs env nec.flagTerminationTime nec.mixedIO filename o
    .ok ⟨nec, o', n⟩) := by
  unfold iniParse fileConfs Environment.entries
  cases env.file filename with
  | none => rfl
  | some text =>
    exact foldlM_map (φ := fun o => (⟨nec, o, n⟩ : UserConfs)) (fun o e => configHandler_configure) _ _

/-- A mixed test refuses a single process, and nothing else is changed by it. -/
theorem fileConfs_mixed : fileConfs env time true filename o = .ok o' ↔
    (∀ e ∈ env.entries filename, ¬ e.OneProcess) ∧ fileConfs env time false filename o = .ok o' := by
  refine foldlM_guard (fun s e _ hone s' => ?_) fun s e _ hone => ?_
  · rw [configure_eq, if_pos ⟨hone, rfl⟩]
    exact fun h => nomatch h
  · have hnot : ∀ b, ¬ (e.OneProcess ∧ b = true) := fun b h => hone h.1
    rw [configure_eq, if_neg (hnot true), configure_eq, if_neg (hnot false)]

/-- Before `-t` the ramp-up and the cool-down are not set, and nothing else is changed by it. -/
theorem fileConfs_unramped : fileConfs env false mixed filename (o.ramped 0 0) = (do
    let o' ← fileConfs env true mixed filename o
    .ok (o'.ramped 0 0)) := by
  refine foldlM_map (φ := fun o => OptionalConfs.ramped o 0 0) (fun o e => ?_) _ _
  rw [configure_eq, configure_eq]
  split
  · rfl
  · have hramped : (o.ramped 0 0).ramped 0 0 = o.ramped 0 0 := rfl
    rw [hramped]
    cases configHandler env ⟨.init, o.ramped 0 0, 0⟩ e <;> rfl

end File

/-! ### The command line -/

/-- An argument vector that consists of options. -/
def Reads (opts : List Opt) (argv : List (List Char)) : Prop :=
  List.Forall₂ (fun o arg => ∃ a, arg = '-' :: a ∧ Opt.of a = some o) opts argv

/-- The options before the one for the configuration file, if there is one. -/
def beforeFile (opts : List Opt) : List Opt := opts.takeWhile fun o => o.letter ≠ 'f'

/-- The configuration file. -/
def filename (opts : List Opt) : List Char :=
  match opts.dropWhile fun o => o.letter ≠ 'f' with
  | .f arg :: _ => arg
  | _ => defconf

/-- What the file sets behind the options before it. -/
def settled (env : Environment) (opts : List Opt) : Exec OptionalConfs :=
  fileConfs env (given (beforeFile opts)).flagTerminationTime ( NecessaryConfs.mixedIO (given (beforeFile opts)))
    (filename opts)
    (.init env.now)

section CommandLine

variable {env : Environment} {nec : NecessaryConfs} {o : OptionalConfs} {opts opts' : List Opt} {x : Opt} {b : Bool}
  {argv argv' : List (List Char)} {s s' : UserConfs × Bool} {n : ℕ} {conf : UserConfs}

theorem Opt.isFile_iff : x.IsFile ↔ x.letter = 'f' := by
  cases x <;> simp [IsFile, letter]

theorem optionLoop_eq (h : Reads opts argv) : optionLoop env s argv = opts.foldlM (optionStep env) s := by
  induction h generalizing s with
  | nil =>
    unfold optionLoop
    rfl
  | cons hx _ ih =>
    obtain ⟨a, rfl, ha⟩ := hx
    rw [optionLoop, ha, List.foldlM_cons]
    dsimp only
    congr 1
    funext t
    exact ih

/-- An option that is not refused sets its fields. -/
theorem optionStep_eq_ok (hx : ¬ x.IsFile) : optionStep env (⟨nec, o, n⟩, b) x = .ok s' ↔
    ¬ Blocked nec x ∧ (⟨nec.set x, o, n⟩, b) = s' := by
  cases x with
  | p =>
    by_cases h : nec.testtype = some .nominal
    · simp [optionStep, Blocked, h]
    · simp [optionStep, Blocked, h, NecessaryConfs.set]
  | n arg =>
    by_cases h : nec.testtype = some .peak
    · simp [optionStep, Blocked, h]
    · simp [optionStep, Blocked, h, NecessaryConfs.set]
  | w =>
    by_cases h : nec.iotype = some .read ∨ nec.mixedIO = true
    · rw [optionStep, if_neg (by simpa using fun h' => h.resolve_left h')]
      simp [Blocked, h]
    · rw [optionStep, if_pos (by simpa using h)]
      simp [Blocked, h, NecessaryConfs.set]
  | r =>
    by_cases h : nec.iotype = some .write ∨ nec.mixedIO = true
    · rw [optionStep, if_neg (by simpa using fun h' => h.resolve_left h')]
      simp [Blocked, h]
    · rw [optionStep, if_pos (by simpa using h)]
      simp [Blocked, h, NecessaryConfs.set]
  | m => simp [optionStep, Blocked, NecessaryConfs.set]
  | t arg => simp [optionStep, Blocked, NecessaryConfs.set]
  | s arg => simp [optionStep, Blocked, NecessaryConfs.set]
  | f arg => exact absurd ⟨arg, rfl⟩ hx

/-- The options but for the file. -/
theorem options_eq_ok (hopts : ∀ x ∈ opts, ¬ x.IsFile) : opts.foldlM (optionStep env) (⟨nec, o, n⟩, b) = .ok s' ↔
    Allowed nec opts ∧ (⟨opts.foldl NecessaryConfs.set nec, o, n⟩, b) = s' := by
  induction opts generalizing nec with
  | nil => simp [Allowed, pure, Except.pure]
  | cons x opts ih =>
    rw [foldlM_cons_eq_ok]
    simp only [optionStep_eq_ok (hopts x List.mem_cons_self), Allowed, List.foldl_cons]
    constructor
    · rintro ⟨t, ⟨hx, rfl⟩, h⟩
      obtain ⟨hallowed, rfl⟩ := (ih fun y hy => hopts y (List.mem_cons_of_mem _ hy)).mp h
      exact ⟨⟨hx, hallowed⟩, rfl⟩
    · rintro ⟨⟨hx, hallowed⟩, rfl⟩
      exact ⟨_, ⟨hx, rfl⟩, (ih fun y hy => hopts y (List.mem_cons_of_mem _ hy)).mpr ⟨hallowed, rfl⟩⟩

theorem letter_ne_of_notFile (h : ∀ x ∈ opts, ¬ x.IsFile) : ∀ x ∈ opts, decide (x.letter ≠ 'f') = true := by
  intro x hx
  exact decide_eq_true fun hf => h x hx (Opt.isFile_iff.mpr hf)

theorem beforeFile_of_none (h : ∀ x ∈ opts, ¬ x.IsFile) : beforeFile opts = opts ∧ filename opts = defconf := by
  have hp := letter_ne_of_notFile h
  rw [beforeFile, filename, List.takeWhile_eq_self_iff.mpr hp, List.dropWhile_eq_nil_iff.mpr hp]
  exact ⟨rfl, rfl⟩

theorem beforeFile_append {arg : List Char} (h : ∀ x ∈ opts, ¬ x.IsFile) :
    beforeFile (opts ++ .f arg :: opts') = opts ∧ filename (opts ++ .f arg :: opts') = arg := by
  have hp := letter_ne_of_notFile h
  rw [beforeFile, filename, List.takeWhile_append_of_pos hp, List.dropWhile_append_of_pos hp]
  simp [Opt.letter]

/-- Where the file comes, if it comes at all. -/
theorem file_cases (hnodup : (opts.map Opt.letter).Nodup) : (∀ x ∈ opts, ¬ x.IsFile) ∨
    ∃ pre arg post, opts = pre ++ .f arg :: post ∧ (∀ x ∈ pre, ¬ x.IsFile) ∧ ∀ x ∈ post, ¬ x.IsFile := by
  by_cases h : ∃ arg, .f arg ∈ opts
  · obtain ⟨arg, hmem⟩ := h
    obtain ⟨pre, post, rfl⟩ := List.append_of_mem hmem
    rw [List.map_append, List.map_cons, List.nodup_append, List.nodup_cons] at hnodup
    obtain ⟨-, ⟨hpost, -⟩, hpre⟩ := hnodup
    refine .inr ⟨pre, arg, post, rfl, fun x hx hf => ?_, fun x hx hf => ?_⟩
    · exact hpre _ (List.mem_map_of_mem hx) 'f' List.mem_cons_self (Opt.isFile_iff.mp hf)
    · refine hpost ?_
      rw [show Opt.letter (.f arg) = x.letter from (Opt.isFile_iff.mp hf).symm]
      exact List.mem_map_of_mem hx
  · refine .inl fun x hx => ?_
    rintro ⟨arg, rfl⟩
    exact h ⟨arg, hx⟩

/-- **What `main` makes of a command line**: no two options clash in the order in which they come, and the file, read
with what is known of the options before it, goes with them. -/
theorem mainConf_eq_ok (hr : Reads opts argv) (hnodup : (opts.map Opt.letter).Nodup) :
    mainConf env argv = .ok conf ↔ opts.Pairwise (fun a b => ¬ Clash a b) ∧
      ∃ o, settled env opts = .ok o ∧ acceptConf ⟨given opts, o, 0⟩ = .ok conf := by
  rw [← allowed_iff hnodup, mainConf, optionLoop_eq hr, UserConfs.init, bind_eq_ok]
  rcases file_cases hnodup with hnone | ⟨pre, arg, post, rfl, hpre, hpost⟩
  · obtain ⟨hbefore, hname⟩ := beforeFile_of_none hnone
    rw [settled, hbefore, hname]
    simp only [options_eq_ok hnone]
    constructor
    · rintro ⟨_, ⟨hallowed, rfl⟩, h⟩
      rw [if_neg (by simp), iniParse_eq] at h
      simp only [bind_eq_ok, Except.ok.injEq] at h
      obtain ⟨_, ⟨o, ho, rfl⟩, h⟩ := h
      exact ⟨hallowed, o, ho, h⟩
    · rintro ⟨hallowed, o, ho, h⟩
      refine ⟨_, ⟨hallowed, rfl⟩, ?_⟩
      rw [if_neg (by simp), iniParse_eq]
      simp only [bind_eq_ok]
      exact ⟨_, ⟨o, ho, rfl⟩, h⟩
  · obtain ⟨hbefore, hname⟩ := @beforeFile_append pre post arg hpre
    rw [settled, hbefore, hname, allowed_append, Allowed]
    have hgiven : given (pre ++ .f arg :: post) = post.foldl NecessaryConfs.set (given pre) := by
      rw [given, List.foldl_append, List.foldl_cons]
      rfl
    rw [hgiven]
    constructor
    · rintro ⟨t, ht, h⟩
      obtain ⟨u, hu, ht⟩ := foldlM_append_eq_ok.mp ht
      obtain ⟨hallowed, rfl⟩ := (options_eq_ok hpre).mp hu
      obtain ⟨v, hv, ht⟩ := foldlM_cons_eq_ok.mp ht
      rw [optionStep, if_neg (by simp), iniParse_eq] at hv
      simp only [bind_eq_ok, Except.ok.injEq] at hv
      obtain ⟨_, ⟨o, ho, rfl⟩, rfl⟩ := hv
      obtain ⟨hallowed', rfl⟩ := (options_eq_ok hpost).mp ht
      exact ⟨⟨hallowed, id, hallowed'⟩, o, ho, h⟩
    · rintro ⟨⟨hallowed, -, hallowed'⟩, o, ho, h⟩
      refine ⟨(⟨post.foldl NecessaryConfs.set (given pre), o, 0⟩, true), foldlM_append_eq_ok.mpr ⟨_,
        (options_eq_ok hpre).mpr ⟨hallowed, rfl⟩, foldlM_cons_eq_ok.mpr ⟨(⟨given pre, o, 0⟩, true), ?_,
          (options_eq_ok hpost).mpr ⟨hallowed', rfl⟩⟩⟩, h⟩
      rw [optionStep, if_neg (by simp), iniParse_eq]
      simp only [bind_eq_ok]
      exact ⟨_, ⟨o, ho, rfl⟩, rfl⟩

end CommandLine

/-! ### The checks -/

/-- What `main` checks. -/
structure UserConfs.Valid (conf : UserConfs) : Prop where
  iotype : conf.iotype ≠ none ∨ conf.mixedIO = true
  testtype : conf.testtype ≠ none
  termination : conf.flagTerminationSize = true ∨ conf.flagTerminationTime = true
  time : conf.flagTerminationTime = true → 0 ≤ conf.timeToRun ∧ conf.timeToRun * 60 < 2 ^ 31
  filesize : conf.filesize ≠ 0
  ratio : conf.testtype = some .nominal → 0 < conf.ratio
  blockSize : conf.blockSize ≠ 0
  compression : 1 ≤ conf.compressionToAchieve ∧ conf.compressionToAchieve ≤ 99
  percentage : 1 ≤ conf.percentageAnalyze ∧ conf.percentageAnalyze ≤ 99

/-- What `main` makes of the values it has read. -/
structure Converted (conf conf' : UserConfs) : Prop where
  testtype : conf'.testtype = conf.testtype
  mixedIO : conf'.mixedIO = conf.mixedIO
  nprocs : conf'.nprocs = conf.nprocs
  flagTerminationSize : conf'.flagTerminationSize = conf.flagTerminationSize
  flagTerminationTime : conf'.flagTerminationTime = conf.flagTerminationTime
  start : conf'.start = conf.start
  finish : conf'.finish = conf.finish
  blockSize : conf'.blockSize = conf.blockSize
  ratio : conf'.ratio = conf.ratio / 1000000
  ratior : conf'.ratior = if conf.mixedIO then conf.ratior / 1000000 else conf.ratior
  ratiow : conf'.ratiow = if conf.mixedIO then conf.ratiow / 1000000 else conf.ratiow
  numberOps : conf'.numberOps =
    if conf.flagTerminationSize then u64 (conf.numberOps * 1024 * 1024) / conf.blockSize else conf.numberOps

section Checks

variable {nec : NecessaryConfs} {o : OptionalConfs} {conf conf' : UserConfs} {n : ℕ}

theorem UserConfs.Valid.ramped (h : UserConfs.Valid ⟨nec, o, n⟩) (a b : ℤ) : UserConfs.Valid ⟨nec, o.ramped a b, n⟩ :=
  ⟨h.iotype, h.testtype, h.termination, h.time, h.filesize, h.ratio, h.blockSize, h.compression, h.percentage⟩

theorem valid_of_checkConf (h : checkConf conf = .ok ()) (htime : conf.flagTerminationTime = true →
    conf.timeToRun * 60 < 2 ^ 31) : conf.Valid := by
  unfold checkConf at h
  split at h
  next => cases h
  next hio =>
  split at h
  next => cases h
  next htest =>
  split at h
  next => cases h
  next hend =>
  split at h
  next => cases h
  next hneg =>
  split at h
  next => cases h
  next hsize =>
  split at h
  next => cases h
  next hratio =>
  split at h
  next => cases h
  next hblock =>
  split at h
  next => cases h
  next hcomp =>
  split at h
  next => cases h
  next hperc =>
  refine ⟨?_, htest, ?_, fun hflag => ⟨?_, htime hflag⟩, hsize, fun hnom => ?_, hblock, by omega, by omega⟩
  · by_cases hnone : conf.iotype = none
    · exact .inr (by simpa [hnone] using hio)
    · exact .inl hnone
  · cases hs : conf.flagTerminationSize
    · exact .inr (by simpa [hs] using hend)
    · exact .inl rfl
  · exact not_lt.mp fun hlt => hneg ⟨hflag, hlt⟩
  · exact not_le.mp fun hle => hratio ⟨hnom, hle⟩

theorem checkConf_of_valid (h : conf.Valid) : checkConf conf = .ok () := by
  have hio : ¬ (conf.iotype = none ∧ conf.mixedIO = false) := by
    rintro ⟨hio, hmixed⟩
    rcases h.iotype with hne | htrue
    · exact hne hio
    · rw [hmixed] at htrue
      cases htrue
  have hend : ¬ (conf.flagTerminationSize = false ∧ conf.flagTerminationTime = false) := by
    rintro ⟨hsize, htime⟩
    have hend := h.termination
    rw [hsize, htime] at hend
    rcases hend with hend | hend <;> cases hend
  have htime : ¬ (conf.flagTerminationTime = true ∧ conf.timeToRun < 0) := fun ⟨ht, hneg⟩ =>
    absurd (h.time ht).1 (not_le.mpr hneg)
  have hratio : ¬ (conf.testtype = some .nominal ∧ conf.ratio ≤ 0) := fun ⟨ht, hle⟩ =>
    absurd (h.ratio ht) (not_lt.mpr hle)
  have hcomp : ¬ (conf.compressionToAchieve < 1 ∨ 99 < conf.compressionToAchieve) := by
    have hcomp := h.compression
    omega
  have hperc : ¬ (conf.percentageAnalyze < 1 ∨ 99 < conf.percentageAnalyze) := by
    have hperc := h.percentage
    omega
  rw [checkConf, if_neg hio, if_neg h.testtype, if_neg hend, if_neg htime, if_neg h.filesize, if_neg hratio,
    if_neg h.blockSize, if_neg hcomp, if_neg hperc]

/-- What the conversions make of a configuration whose time fits an `int` in seconds. -/
def UserConfs.converted (conf : UserConfs) : UserConfs :=
  { conf with
    ratio := conf.ratio / 1000000
    ratior := if conf.mixedIO then conf.ratior / 1000000 else conf.ratior
    ratiow := if conf.mixedIO then conf.ratiow / 1000000 else conf.ratiow
    filesize := u64 (conf.filesize * 1024 * 1024)
    totblocks := u64 (conf.filesize * 1024 * 1024) / conf.blockSize
    timeToRun := if conf.flagTerminationTime then conf.timeToRun * 60 else conf.timeToRun
    distfile := if conf.distf then conf.distfile else dfile
    numberOps := if conf.flagTerminationSize then u64 (conf.numberOps * 1024 * 1024) / conf.blockSize
      else conf.numberOps }

theorem convertConf_eq_ok : convertConf conf = .ok conf' ↔
    (conf.flagTerminationTime = true → -2 ^ 31 ≤ conf.timeToRun * 60 ∧ conf.timeToRun * 60 < 2 ^ 31) ∧
      conf.converted = conf' := by
  rw [convertConf, UserConfs.converted]
  by_cases hflag : conf.flagTerminationTime = true
  · rw [if_pos hflag, if_pos hflag, bind_eq_ok]
    constructor
    · rintro ⟨t, ht, hconf⟩
      obtain ⟨hrange, rfl⟩ := cInt_eq_ok.mp ht
      exact ⟨fun _ => hrange, Except.ok.inj hconf⟩
    · rintro ⟨hrange, hconf⟩
      exact ⟨_, cInt_eq_ok.mpr ⟨hrange hflag, rfl⟩, congrArg Except.ok hconf⟩
  · rw [if_neg hflag, if_neg hflag, bind_ok, Except.ok.injEq]
    exact ⟨fun hconf => ⟨fun ht => absurd ht hflag, hconf⟩, And.right⟩

/-- A configuration that is accepted is valid, and converted. -/
theorem valid_of_accept (h : acceptConf conf = .ok conf') : conf.Valid ∧ Converted conf conf' := by
  obtain ⟨⟨⟩, hcheck, h⟩ := bind_eq_ok.mp h
  obtain ⟨htime, rfl⟩ := convertConf_eq_ok.mp h
  exact ⟨valid_of_checkConf hcheck fun hflag => (htime hflag).2, rfl, rfl, rfl, rfl, rfl, rfl, rfl, rfl, rfl, rfl, rfl,
    rfl⟩

theorem exists_accept_of_valid (h : conf.Valid) : ∃ conf', acceptConf conf = .ok conf' := by
  rw [acceptConf, checkConf_of_valid h, bind_ok]
  refine ⟨_, convertConf_eq_ok.mpr ⟨fun hflag => ?_, rfl⟩⟩
  obtain ⟨hlow, hhigh⟩ := h.time hflag
  exact ⟨by omega, hhigh⟩

end Checks

/-! ### When the order is free -/

/-- **The order is free**: every permutation of the command line is accepted with the same configuration, or none is
accepted. -/
def OrderFree (env : Environment) (argv : List (List Char)) : Prop :=
  ∀ argv', argv'.Perm argv → ∀ conf, mainConf env argv' = .ok conf ↔ mainConf env argv = .ok conf

/-- Some value of the file is not for a mixed test. -/
def Environment.OneProcess (env : Environment) (filename : List Char) : Prop :=
  ∃ e ∈ env.entries filename, e.OneProcess

/-- What the file sets if `-t` is known, and a mixed test is not. -/
def complete (env : Environment) (opts : List Opt) : Exec OptionalConfs :=
  fileConfs env true false (filename opts) (.init env.now)

/-- The command line is refused in every order: two of its options exclude each other, or the default file is for one
process in a mixed test, or the configuration does not pass the checks. -/
inductive Refused (env : Environment) (opts : List Opt) : Prop
  | rate {arg : List Char} (hp : .p ∈ opts) (hn : .n arg ∈ opts)
  | io (hw : .w ∈ opts) (hr : .r ∈ opts)
  | oneProcess (hfile : ∀ x ∈ opts, ¬ x.IsFile) (hm : .m ∈ opts) (h : env.OneProcess defconf)
  | invalid (h : ∀ o, complete env opts = .ok o → ¬ UserConfs.Valid ⟨given opts, o, 0⟩)

/-- The order shows: `-m` with `-w` or `-r`, or with a file for one process, or `-t` with a file that sets a ramp-up or a
cool-down. -/
inductive Ordered (env : Environment) (opts : List Opt) : Prop
  | io (hm : .m ∈ opts) (h : .w ∈ opts ∨ .r ∈ opts)
  | oneProcess {arg : List Char} (hm : .m ∈ opts) (hf : .f arg ∈ opts) (h : env.OneProcess arg)
  | ramp {arg arg' : List Char} {o : OptionalConfs} (ht : .t arg' ∈ opts) (hf : .f arg ∈ opts)
    (ho : complete env opts = .ok o) (hne : o.start ≠ 0 ∨ o.finish ≠ 0)

/-- Of any two elements of a list, one comes first. -/
theorem either_of_pairwise {α : Type*} {R : α → α → Prop} {l : List α} (h : l.Pairwise R) {a b : α} (ha : a ∈ l)
    (hb : b ∈ l) (hne : a ≠ b) : R a b ∨ R b a := by
  have hsymm : Std.Symm fun x y => R x y ∨ R y x := ⟨fun _ _ => Or.symm⟩
  exact (h.imp Or.inl : l.Pairwise fun x y => R x y ∨ R y x).forall ha hb hne

section Order

variable {env : Environment} {opts opts' : List Opt} {o o₁ : OptionalConfs} {argv argv' : List (List Char)}
  {conf : UserConfs} {a b : Opt}

theorem notClash_self : ¬ Clash a a := by
  cases a <;> exact id

/-- Two options that clash in both orders do not come together. -/
theorem notClash_of_pairwise (h : opts.Pairwise fun a b => ¬ Clash a b) (ha : a ∈ opts) (hb : b ∈ opts) :
    ¬ Clash a b ∨ ¬ Clash b a := by
  by_cases hne : a = b
  · exact .inl (hne ▸ notClash_self)
  · exact either_of_pairwise h ha hb hne

/-- The options around the file. -/
theorem exists_eq_beforeFile_append {arg : List Char} (hnodup : (opts.map Opt.letter).Nodup) (h : .f arg ∈ opts) :
    filename opts = arg ∧ ∃ post, opts = beforeFile opts ++ .f arg :: post := by
  rcases file_cases hnodup with hnone | ⟨pre, arg', post, rfl, hpre, -⟩
  · exact absurd ⟨arg, rfl⟩ (hnone _ h)
  · have heq := List.inj_on_of_nodup_map hnodup (by simp) h (rfl : Opt.letter (.f arg') = Opt.letter (.f arg))
    obtain rfl : arg' = arg := Opt.f.inj heq
    obtain ⟨hbefore, hname⟩ := @beforeFile_append pre post arg' hpre
    exact ⟨hname, post, by rw [hbefore]⟩

theorem filename_perm (hnodup : (opts.map Opt.letter).Nodup) (h : opts'.Perm opts) : filename opts' = filename opts := by
  have hnodup' := (h.map Opt.letter).nodup_iff.mpr hnodup
  rcases file_cases hnodup' with hnone | ⟨pre, arg, post, rfl, hpre, -⟩
  · rw [(beforeFile_of_none hnone).2, (beforeFile_of_none fun x hx => hnone x (h.mem_iff.mpr hx)).2]
  · have hmem : .f arg ∈ opts := h.mem_iff.mp (List.mem_append_right _ List.mem_cons_self)
    rw [(beforeFile_append hpre).2, (exists_eq_beforeFile_append hnodup hmem).1]

/-- **What the file sets**, by what is known of the options before it. -/
theorem settled_eq_ok : settled env opts = .ok o ↔ (.m ∈ beforeFile opts → ¬ env.OneProcess (filename opts)) ∧
    ∃ o₁, complete env opts = .ok o₁ ∧ ((∃ arg, .t arg ∈ beforeFile opts) → o₁ = o) ∧
      ((∀ arg, .t arg ∉ beforeFile opts) → o₁.ramped 0 0 = o) := by
  have hnot : ¬ env.OneProcess (filename opts) ↔ ∀ e ∈ env.entries (filename opts), ¬ e.OneProcess := by
    simp [Environment.OneProcess]
  rw [hnot, ← given_mixedIO]
  have htime : (∀ arg, .t arg ∉ beforeFile opts) ↔ ¬ (given (beforeFile opts)).flagTerminationTime = true := by
    rw [given_flagTerminationTime, not_exists]
  rw [htime, ← given_flagTerminationTime]
  unfold settled complete
  have hunramped : fileConfs env false false (filename opts) (.init env.now) = (do
      let o ← fileConfs env true false (filename opts) (.init env.now)
      .ok (o.ramped 0 0)) := @fileConfs_unramped env (.init env.now) false (filename opts)
  cases NecessaryConfs.mixedIO (given (beforeFile opts)) <;> cases (given (beforeFile opts)).flagTerminationTime <;>
    simp [fileConfs_mixed, hunramped, bind_eq_ok]

theorem file_or_all (hnodup : (opts.map Opt.letter).Nodup) : (∃ arg, .f arg ∈ opts) ∨
    ((∀ x ∈ opts, ¬ x.IsFile) ∧ beforeFile opts = opts ∧ filename opts = defconf) := by
  rcases file_cases hnodup with hnone | ⟨pre, arg, post, rfl, -, -⟩
  · exact .inr ⟨hnone, beforeFile_of_none hnone⟩
  · exact .inl ⟨arg, List.mem_append_right _ List.mem_cons_self⟩

theorem mem_of_beforeFile (h : a ∈ beforeFile opts) : a ∈ opts := List.takeWhile_subset _ h

theorem given_eq_of_perm (hnodup : (opts'.map Opt.letter).Nodup) (hclash : opts'.Pairwise fun a b => ¬ Clash a b)
    (hperm : opts'.Perm opts) : given opts' = given opts :=
  given_perm hnodup (fun _ ha _ hb => notClash_of_pairwise hclash ha hb) hperm

/-- **A command line that is refused** is not accepted in any order. -/
theorem not_ok_of_refused (hnodup : (opts.map Opt.letter).Nodup) (hr : Reads opts' argv') (hperm : opts'.Perm opts)
    (h : Refused env opts) : mainConf env argv' ≠ .ok conf := by
  intro hok
  have hnodup' := (hperm.map Opt.letter).nodup_iff.mpr hnodup
  obtain ⟨hclash, o, ho, haccept⟩ := (mainConf_eq_ok hr hnodup').mp hok
  obtain ⟨hmixed, o₁, ho₁, htime, hnotime⟩ := settled_eq_ok.mp ho
  cases h with
  | rate hp hn =>
    exact (notClash_of_pairwise hclash (hperm.mem_iff.mpr hp) (hperm.mem_iff.mpr hn)).elim (fun h => h trivial)
      fun h => h trivial
  | io hw hr =>
    exact (notClash_of_pairwise hclash (hperm.mem_iff.mpr hw) (hperm.mem_iff.mpr hr)).elim (fun h => h trivial)
      fun h => h trivial
  | oneProcess hfile hm h =>
    obtain ⟨hbefore, hname⟩ := beforeFile_of_none fun x hx => hfile x (hperm.mem_iff.mp hx)
    rw [hbefore, hname] at hmixed
    exact hmixed (hperm.mem_iff.mpr hm) h
  | invalid h =>
    have hcomplete : complete env opts = .ok o₁ := by
      rw [complete, ← filename_perm hnodup hperm]
      exact ho₁
    refine h o₁ hcomplete ?_
    rw [← given_eq_of_perm hnodup' hclash hperm]
    have hvalid := (valid_of_accept haccept).1
    by_cases ht : ∃ arg, .t arg ∈ beforeFile opts'
    · rw [htime ht]
      exact hvalid
    · rw [← hnotime (not_exists.mp ht)] at hvalid
      exact hvalid.ramped o₁.start o₁.finish

theorem Ordered.perm (h : Ordered env opts) (hnodup : (opts.map Opt.letter).Nodup) (hperm : opts'.Perm opts) :
    Ordered env opts' := by
  cases h with
  | io hm h => exact .io (hperm.mem_iff.mpr hm) (h.imp hperm.mem_iff.mpr hperm.mem_iff.mpr)
  | oneProcess hm hf h => exact .oneProcess (hperm.mem_iff.mpr hm) (hperm.mem_iff.mpr hf) h
  | ramp ht hf ho hne =>
    refine .ramp (hperm.mem_iff.mpr ht) (hperm.mem_iff.mpr hf) ?_ hne
    rw [complete, filename_perm hnodup hperm]
    exact ho

/-- Where the order does not show, a permutation is accepted with the same configuration. -/
theorem ok_of_perm (hnodup : (opts.map Opt.letter).Nodup) (hr : Reads opts argv) (hr' : Reads opts' argv')
    (hperm : opts'.Perm opts) (hfree : ¬ Ordered env opts) (h : mainConf env argv' = .ok conf) :
    mainConf env argv = .ok conf := by
  have hnodup' := (hperm.map Opt.letter).nodup_iff.mpr hnodup
  obtain ⟨hclash, o, ho, haccept⟩ := (mainConf_eq_ok hr' hnodup').mp h
  obtain ⟨hmixed, o₁, ho₁, htime, hnotime⟩ := settled_eq_ok.mp ho
  have hname := filename_perm hnodup hperm
  have hcomplete : complete env opts = .ok o₁ := by
    rw [complete, ← hname]
    exact ho₁
  have hramp : ∀ arg arg', .t arg' ∈ opts → .f arg ∈ opts → o₁.ramped 0 0 = o₁ := by
    intro arg arg' ht hf
    have hzero : o₁.start = 0 ∧ o₁.finish = 0 := by
      by_contra hne
      exact hfree (.ramp ht hf hcomplete (by tauto))
    calc o₁.ramped 0 0 = o₁.ramped o₁.start o₁.finish := by rw [hzero.1, hzero.2]
      _ = o₁ := rfl
  rw [given_eq_of_perm hnodup' hclash hperm] at haccept
  refine (mainConf_eq_ok hr hnodup).mpr ⟨?_, o, settled_eq_ok.mpr ⟨?_, o₁, hcomplete, ?_, ?_⟩, haccept⟩
  · refine List.pairwise_of_forall_mem_list fun a ha b hb hab => ?_
    have hba : Clash b a := by
      cases a <;> cases b <;> first
        | exact hab
        | exact trivial
        | exact (hfree (.io ha (.inl hb))).elim
        | exact (hfree (.io ha (.inr hb))).elim
    exact (notClash_of_pairwise hclash (hperm.mem_iff.mpr ha) (hperm.mem_iff.mpr hb)).elim (fun h => h hab)
      fun h => h hba
  · intro hm hone
    rcases file_or_all hnodup with ⟨arg, hf⟩ | ⟨hnone, hbefore, -⟩
    · rw [(exists_eq_beforeFile_append hnodup hf).1] at hone
      exact hfree (.oneProcess (mem_of_beforeFile hm) hf hone)
    · have hbefore' := (beforeFile_of_none fun x hx => hnone x (hperm.mem_iff.mp hx)).1
      rw [hbefore', hname] at hmixed
      exact hmixed (hperm.mem_iff.mpr (mem_of_beforeFile hm)) hone
  · rintro ⟨arg', ht⟩
    by_cases ht' : ∃ arg, .t arg ∈ beforeFile opts'
    · exact htime ht'
    · rw [← hnotime (not_exists.mp ht')]
      rcases file_or_all hnodup with ⟨arg, hf⟩ | ⟨hnone, -, -⟩
      · exact (hramp arg arg' (mem_of_beforeFile ht) hf).symm
      · have hbefore' := (beforeFile_of_none fun x hx => hnone x (hperm.mem_iff.mp hx)).1
        rw [hbefore'] at ht'
        exact absurd ⟨arg', hperm.mem_iff.mpr (mem_of_beforeFile ht)⟩ ht'
  · intro hnot
    by_cases ht' : ∃ arg, .t arg ∈ beforeFile opts'
    · obtain ⟨arg', ht⟩ := ht'
      rw [← htime ⟨arg', ht⟩]
      have hmem := hperm.mem_iff.mp (mem_of_beforeFile ht)
      rcases file_or_all hnodup with ⟨arg, hf⟩ | ⟨-, hbefore, -⟩
      · exact hramp arg arg' hmem hf
      · rw [hbefore] at hnot
        exact absurd hmem (hnot arg')
    · exact hnotime (not_exists.mp ht')

end Order

/-! ### Where it is not -/

/-- The options in the order of a rank. -/
def arranged (rank : Opt → ℕ) (opts : List Opt) : List Opt := opts.mergeSort fun a b => rank a ≤ rank b

/-- First `-t`, last `-m`. -/
def timeFirst : Opt → ℕ
  | .t _ => 0
  | .m => 2
  | _ => 1

/-- Last `-t` and `-m`. -/
def timeLast : Opt → ℕ
  | .t _ => 2
  | .m => 3
  | _ => 1

/-- First `-m`. -/
def mixedFirst : Opt → ℕ
  | .m => 0
  | _ => 1

section Arranged

variable {env : Environment} {opts opts' : List Opt} {o₁ : OptionalConfs} {argv argv' : List (List Char)}
  {conf : UserConfs} {a : Opt} {arg : List Char} {rank : Opt → ℕ}

theorem arranged_pairwise (rank : Opt → ℕ) (opts : List Opt) :
    (arranged rank opts).Pairwise fun a b => rank a ≤ rank b := by
  have h := @List.pairwise_mergeSort Opt (fun a b => decide (rank a ≤ rank b))
    (fun a b c hab hbc => by simp only [decide_eq_true_eq] at *; exact hab.trans hbc)
    (fun a b => by simpa using le_total (rank a) (rank b)) opts
  simpa [arranged] using h

theorem arranged_perm (rank : Opt → ℕ) (opts : List Opt) : (arranged rank opts).Perm opts := List.mergeSort_perm opts _

theorem nodup_arranged (hnodup : (opts.map Opt.letter).Nodup) (rank : Opt → ℕ) :
    ((arranged rank opts).map Opt.letter).Nodup :=
  ((arranged_perm rank opts).map Opt.letter).nodup_iff.mpr hnodup

/-- If the order is free, the command line in the order of a rank does what it does as it is. -/
theorem OrderFree.exists_arranged (hfree : OrderFree env argv) (hr : Reads opts argv) (rank : Opt → ℕ) :
    ∃ argv', Reads (arranged rank opts) argv' ∧ ∀ conf, mainConf env argv' = .ok conf ↔ mainConf env argv = .ok conf := by
  obtain ⟨argv', hr', hperm⟩ := List.perm_comp_forall₂ (arranged_perm rank opts) hr
  exact ⟨argv', hr', hfree argv' hperm⟩

theorem mem_beforeFile_of_lt (hnodup : (opts.map Opt.letter).Nodup) (hsorted : opts.Pairwise fun a b => rank a ≤ rank b)
    (ha : a ∈ opts) (hf : .f arg ∈ opts) (hlt : rank a < rank (.f arg)) : a ∈ beforeFile opts := by
  obtain ⟨-, post, hsplit⟩ := exists_eq_beforeFile_append hnodup hf
  rw [hsplit, List.pairwise_append, List.pairwise_cons] at hsorted
  rw [hsplit] at ha
  rcases List.mem_append.mp ha with ha | ha
  · exact ha
  · rcases List.mem_cons.mp ha with rfl | ha
    · exact absurd hlt (lt_irrefl _)
    · exact absurd (hsorted.2.1.1 a ha) (not_le.mpr hlt)

theorem notMem_beforeFile_of_lt (hnodup : (opts.map Opt.letter).Nodup)
    (hsorted : opts.Pairwise fun a b => rank a ≤ rank b) (hf : .f arg ∈ opts) (hlt : rank (.f arg) < rank a) :
    a ∉ beforeFile opts := by
  obtain ⟨-, post, hsplit⟩ := exists_eq_beforeFile_append hnodup hf
  rw [hsplit, List.pairwise_append] at hsorted
  exact fun ha => absurd (hsorted.2.2 a ha _ List.mem_cons_self) (not_le.mpr hlt)

/-- With `-m` last, a command line is accepted unless it is refused in every order. -/
theorem exists_ok_of_sorted (hnodup : (opts.map Opt.letter).Nodup) (hr : Reads opts' argv') (hperm : opts'.Perm opts)
    (hsorted : opts'.Pairwise fun a b => rank a ≤ rank b) (hm : ∀ a, a ≠ .m → rank a < rank .m)
    (hnot : ¬ Refused env opts) (ho₁ : complete env opts = .ok o₁) : ∃ conf, mainConf env argv' = .ok conf ∧
      ((∃ arg, .t arg ∈ beforeFile opts') → conf.start = o₁.start ∧ conf.finish = o₁.finish) ∧
      ((∀ arg, .t arg ∉ beforeFile opts') → conf.start = 0 ∧ conf.finish = 0) := by
  have hnodup' := (hperm.map Opt.letter).nodup_iff.mpr hnodup
  have hclash : opts'.Pairwise fun a b => ¬ Clash a b := by
    refine hsorted.imp_of_mem fun {a b} ha hb hle hab => ?_
    have ha := hperm.mem_iff.mp ha
    have hb := hperm.mem_iff.mp hb
    cases a <;> cases b <;> first
      | exact hab
      | exact hnot (.rate ha hb)
      | exact hnot (.rate hb ha)
      | exact hnot (.io ha hb)
      | exact hnot (.io hb ha)
      | exact absurd hle (not_le.mpr (hm _ (by simp)))
  have hvalid : UserConfs.Valid ⟨given opts', o₁, 0⟩ := by
    rw [given_eq_of_perm hnodup' hclash hperm]
    by_contra hinvalid
    refine hnot (.invalid fun o ho => ?_)
    rw [ho₁, Except.ok.injEq] at ho
    exact ho ▸ hinvalid
  have hcomplete : complete env opts' = .ok o₁ := by
    rw [complete, filename_perm hnodup hperm]
    exact ho₁
  have hmixed : .m ∈ beforeFile opts' → ¬ env.OneProcess (filename opts') := by
    intro hmem hone
    rcases file_or_all hnodup' with ⟨arg, hf⟩ | ⟨hnone, -, hname⟩
    · exact notMem_beforeFile_of_lt hnodup' hsorted hf (hm _ (by simp)) hmem
    · refine hnot (.oneProcess (fun x hx => hnone x (hperm.mem_iff.mpr hx))
        (hperm.mem_iff.mp (mem_of_beforeFile hmem)) ?_)
      rwa [hname] at hone
  by_cases ht : ∃ arg, .t arg ∈ beforeFile opts'
  · obtain ⟨conf, hconf⟩ := exists_accept_of_valid hvalid
    refine ⟨conf, (mainConf_eq_ok hr hnodup').mpr ⟨hclash, o₁, settled_eq_ok.mpr ⟨hmixed, o₁, hcomplete,
      fun _ => rfl, fun hnot => absurd ht (not_exists.mpr hnot)⟩, hconf⟩, fun _ => ?_,
      fun hnot => absurd ht (not_exists.mpr hnot)⟩
    exact ⟨(valid_of_accept hconf).2.start, (valid_of_accept hconf).2.finish⟩
  · obtain ⟨conf, hconf⟩ := exists_accept_of_valid (hvalid.ramped 0 0)
    refine ⟨conf, (mainConf_eq_ok hr hnodup').mpr ⟨hclash, _, settled_eq_ok.mpr ⟨hmixed, o₁, hcomplete,
      fun h => absurd h ht, fun _ => rfl⟩, hconf⟩, fun h => absurd h ht, fun _ => ?_⟩
    exact ⟨(valid_of_accept hconf).2.start, (valid_of_accept hconf).2.finish⟩

/-- With `-m` first, it is not accepted if `-w`, `-r` or a file for one process follows. -/
theorem not_ok_of_sorted (hnodup : (opts.map Opt.letter).Nodup) (hr : Reads opts argv)
    (hsorted : opts.Pairwise fun a b => rank a ≤ rank b) (hmin : ∀ a, a ≠ .m → rank .m < rank a) (hm : .m ∈ opts)
    (h : (.w ∈ opts ∨ .r ∈ opts) ∨ ∃ arg, .f arg ∈ opts ∧ env.OneProcess arg) : mainConf env argv ≠ .ok conf := by
  intro hok
  obtain ⟨hclash, o, ho, -⟩ := (mainConf_eq_ok hr hnodup).mp hok
  have hboth : opts.Pairwise fun a b => ¬ Clash a b ∧ rank a ≤ rank b := List.pairwise_and_iff.mpr ⟨hclash, hsorted⟩
  have hnone : ∀ a ∈ opts, Clash .m a → False := by
    intro a ha hma
    have hne : Opt.m ≠ a := fun heq => notClash_self (heq ▸ hma)
    rcases either_of_pairwise hboth hm ha hne with ⟨hnot, -⟩ | ⟨-, hle⟩
    · exact hnot hma
    · exact absurd hle (not_le.mpr (hmin a hne.symm))
  rcases h with (hw | hr) | ⟨arg, hf, hone⟩
  · exact hnone _ hw trivial
  · exact hnone _ hr trivial
  · refine (settled_eq_ok.mp ho).1 (mem_beforeFile_of_lt hnodup hsorted hm hf (hmin _ (by simp))) ?_
    rwa [(exists_eq_beforeFile_append hnodup hf).1]

/-- With `-m` first, a command line that is accepted has neither a kind of I/O nor a file for one process beside it. -/
theorem OrderFree.not_mixed (hfree : OrderFree env argv) (hr : Reads opts argv) (hnodup : (opts.map Opt.letter).Nodup)
    (hok : mainConf env argv = .ok conf) (hm : .m ∈ opts) :
    ¬ ((.w ∈ opts ∨ .r ∈ opts) ∨ ∃ arg, .f arg ∈ opts ∧ env.OneProcess arg) := by
  intro h
  obtain ⟨argv', hr', hsame⟩ := hfree.exists_arranged hr mixedFirst
  refine not_ok_of_sorted (nodup_arranged hnodup mixedFirst) hr' (arranged_pairwise _ _)
    (fun a ha => by cases a <;> simp_all [mixedFirst]) ((arranged_perm _ _).mem_iff.mpr hm) ?_ ((hsame conf).mpr hok)
  simpa only [(arranged_perm mixedFirst opts).mem_iff] using h

/-- A command line with `-t` before or behind the file has the same ramp-up and cool-down only if there are none. -/
theorem OrderFree.not_ramp {arg arg' : List Char} (hfree : OrderFree env argv) (hr : Reads opts argv)
    (hnodup : (opts.map Opt.letter).Nodup) (hnot : ¬ Refused env opts) (ht : .t arg' ∈ opts) (hf : .f arg ∈ opts)
    (ho₁ : complete env opts = .ok o₁) : o₁.start = 0 ∧ o₁.finish = 0 := by
  obtain ⟨argv₁, hr₁, hsame₁⟩ := hfree.exists_arranged hr timeFirst
  obtain ⟨argv₂, hr₂, hsame₂⟩ := hfree.exists_arranged hr timeLast
  obtain ⟨conf₁, hok₁, htime, -⟩ := exists_ok_of_sorted hnodup hr₁ (arranged_perm _ _) (arranged_pairwise _ _)
    (fun a ha => by cases a <;> simp_all [timeFirst]) hnot ho₁
  obtain ⟨conf₂, hok₂, -, hnotime⟩ := exists_ok_of_sorted hnodup hr₂ (arranged_perm _ _) (arranged_pairwise _ _)
    (fun a ha => by cases a <;> simp_all [timeLast]) hnot ho₁
  obtain rfl : conf₁ = conf₂ :=
    Except.ok.inj (((hsame₁ conf₁).mp hok₁).symm.trans ((hsame₂ conf₂).mp hok₂))
  have hfirst := htime ⟨arg', mem_beforeFile_of_lt (nodup_arranged hnodup _) (arranged_pairwise _ _)
    ((arranged_perm _ _).mem_iff.mpr ht) ((arranged_perm _ _).mem_iff.mpr hf)
    (show timeFirst (.t arg') < timeFirst (.f arg) by simp [timeFirst])⟩
  have hlast := hnotime fun arg'' => notMem_beforeFile_of_lt (nodup_arranged hnodup _) (arranged_pairwise _ _)
    ((arranged_perm _ _).mem_iff.mpr hf) (show timeLast (.f arg) < timeLast (.t arg'') by simp [timeLast])
  exact ⟨hfirst.1.symm.trans hlast.1, hfirst.2.symm.trans hlast.2⟩

/-- Where the order is free and the command line is not refused, nothing in it depends on the order. -/
theorem OrderFree.not_ordered (hfree : OrderFree env argv) (hr : Reads opts argv)
    (hnodup : (opts.map Opt.letter).Nodup) (hnot : ¬ Refused env opts) : ¬ Ordered env opts := by
  obtain ⟨o₁, ho₁⟩ : ∃ o₁, complete env opts = .ok o₁ := by
    by_contra hnone
    exact hnot (.invalid fun o ho => absurd ⟨o, ho⟩ hnone)
  obtain ⟨argv', hr', hsame⟩ := hfree.exists_arranged hr timeFirst
  obtain ⟨conf, hok', -, -⟩ := exists_ok_of_sorted hnodup hr' (arranged_perm _ _) (arranged_pairwise _ _)
    (fun a ha => by cases a <;> simp_all [timeFirst]) hnot ho₁
  have hok := (hsame conf).mp hok'
  intro hordered
  cases hordered with
  | io hm h => exact hfree.not_mixed hr hnodup hok hm (.inl h)
  | oneProcess hm hf h => exact hfree.not_mixed hr hnodup hok hm (.inr ⟨_, hf, h⟩)
  | ramp ht hf ho hne =>
    obtain ⟨hstart, hfinish⟩ := hfree.not_ramp hr hnodup hnot ht hf ho
    rcases hne with hne | hne
    · exact hne hstart
    · exact hne hfinish

/-- **When the order of the options is free**: for a command line whose options are all different, every permutation
is accepted with the same configuration, or none is accepted, exactly if it is refused in every order or nothing in it
depends on the order. -/
theorem optionOrder_iff (hr : Reads opts argv) (hnodup : (opts.map Opt.letter).Nodup) :
    OrderFree env argv ↔ Refused env opts ∨ ¬ Ordered env opts := by
  constructor
  · intro hfree
    by_cases hrefused : Refused env opts
    · exact .inl hrefused
    · exact .inr (hfree.not_ordered hr hnodup hrefused)
  · intro h argv' hperm' conf
    obtain ⟨opts', hperm, hr'⟩ : ∃ opts', opts'.Perm opts ∧ Reads opts' argv' := by
      obtain ⟨opts', hr', hperm⟩ := List.perm_comp_forall₂ hperm' hr.flip
      exact ⟨opts', hperm, hr'.flip⟩
    have hnodup' := (hperm.map Opt.letter).nodup_iff.mpr hnodup
    rcases h with hrefused | hnot
    · exact ⟨fun hok => absurd hok (not_ok_of_refused hnodup hr' hperm hrefused),
        fun hok => absurd hok (not_ok_of_refused hnodup hr (List.Perm.refl _) hrefused)⟩
    · exact ⟨ok_of_perm hnodup hr hr' hperm hnot,
        ok_of_perm hnodup' hr' hr hperm.symm fun h => hnot (h.perm hnodup' hperm.symm)⟩

end Arranged

/-- Two configuration files, `c` with a ramp-up and a cool-down and `one` for one process. -/
def twoConfigs : Environment where
  now := 0
  file name :=
    if name = "c".toList then
      some "[execution]\ncompression_to_achieve=25\npercentage_analyze=2\n[results]\ngeneral_results=out:1:2\n".toList
    else if name = "one".toList then
      some "[execution]\ncompression_to_achieve=25\npercentage_analyze=2\nnprocs=1\n".toList
    else none
  distdb := true

/-- A command line whose order is free, and that is accepted. -/
theorem plainOptions_orderFree : OrderFree twoConfigs (["-p", "-w", "-s1", "-fc"].map String.toList) ∧
    okWith (mainConf twoConfigs (["-p", "-w", "-s1", "-fc"].map String.toList)) fun conf => conf.numberOps = 256 := by
  refine ⟨(@optionOrder_iff twoConfigs [.p, .w, .s ['1'], .f ['c']] _ ?_ (by decide)).mpr (.inr fun h => ?_),
    by decide +kernel⟩
  · exact .cons ⟨_, rfl, rfl⟩ (.cons ⟨_, rfl, rfl⟩ (.cons ⟨_, rfl, rfl⟩ (.cons ⟨_, rfl, rfl⟩ .nil)))
  · cases h with
    | io hm => exact absurd hm (by decide)
    | oneProcess hm => exact absurd hm (by decide)
    | ramp ht => simp at ht

/-- `-m` before and behind `-w`, `-t` before and behind a file with a ramp-up, and `-m` before and behind a file for one
process. -/
theorem options_not_orderFree :
    failsWith (mainConf twoConfigs (["-p", "-m", "-w", "-s1", "-fc"].map String.toList)) .exit ∧
    ¬ OrderFree twoConfigs (["-p", "-m", "-w", "-s1", "-fc"].map String.toList) ∧
    okWith (mainConf twoConfigs (["-p", "-w", "-fc", "-t3"].map String.toList)) (fun conf =>
      conf.start = 0 ∧ conf.finish = 0) ∧
    okWith (mainConf twoConfigs (["-p", "-w", "-t3", "-fc"].map String.toList)) (fun conf =>
      conf.start = 1 ∧ conf.finish = 2) ∧
    failsWith (mainConf twoConfigs (["-p", "-m", "-s1", "-fone"].map String.toList)) .exit ∧
    okWith (mainConf twoConfigs (["-p", "-s1", "-fone", "-m"].map String.toList)) (fun conf =>
      conf.nprocs = 1 ∧ conf.mixedIO = true) := by
  have hrejected : failsWith (mainConf twoConfigs (["-p", "-m", "-w", "-s1", "-fc"].map String.toList)) .exit := by
    decide +kernel
  have haccepted : okWith (mainConf twoConfigs (["-p", "-w", "-m", "-s1", "-fc"].map String.toList)) fun _ => true := by
    decide +kernel
  refine ⟨hrejected, fun hfree => ?_, by decide +kernel, by decide +kernel, by decide +kernel, by decide +kernel⟩
  have hperm : (["-p", "-w", "-m", "-s1", "-fc"].map String.toList).Perm
      (["-p", "-m", "-w", "-s1", "-fc"].map String.toList) := by decide
  obtain ⟨conf, hconf, -⟩ := exists_of_okWith haccepted
  have hsame := (hfree _ hperm conf).mp hconf
  rw [eq_error_of_failsWith hrejected] at hsame
  cases hsame

end Dedisbench
