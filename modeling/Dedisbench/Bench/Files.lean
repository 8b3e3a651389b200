import Dedisbench.Bench.SizeRun
import Mathlib.Algebra.Order.Ring.Int
import Mathlib.Data.Bool.AllAny

/-!
# The files of a mixed test

The number of files is worked out again in each function: `populate` and `static_check` halve `nprocs`, `loadmmap`
halves it for the rows of the content tracker and then takes one row for a device, and `launch_benchmark` halves it for
the number of each child and once more for the files to destroy.  They fit together only if `nprocs` is even
(`mapped_iff`): otherwise the last reader has a file of its own, which none of the others knows of.

The names of the files are put together in arrays of fixed size, and what `dd` is to fill and `rm` to remove is handed
to a shell, which takes the name apart at its blanks.
-/

namespace Dedisbench

open Text ExceptRun

/-! ### The names of the files -/

/-- `TMP_FILE` -/
def tmpFile : List Char := "dedisbench_0010test".toList

/-- `DDPOP` -/
def ddPop : ℤ := 2

/-- The name of the file of a process. -/
def UserConfs.pfileName (conf : UserConfs) (procid : ℕ) : List Char := conf.tempfilespath ++ tmpFile ++ decimal procid

/-- `sprintf` into an array of `size` characters. -/
def sprintfDecimal (size n : ℕ) : Exec (List Char) :=
  if (decimal n).length < size then .ok (decimal n) else .error .undefined

/-- The name that `create_pfile` opens. -/
def UserConfs.createPfile (conf : UserConfs) (procid : ℕ) : Exec (List Char) := do
  let id ← sprintfDecimal 4 procid
  strcpyPath (conf.tempfilespath ++ tmpFile ++ id)

/-- The command of `dd_populate`. -/
def UserConfs.ddPopulate (conf : UserConfs) (name : List Char) : Exec (List Char) := do
  let count ← sprintfDecimal 10 (conf.filesize / 1024 / 1024)
  strcpyPath ("dd if=/dev/zero of=".toList ++ name ++ " bs=1M count=".toList ++ count)

/-- The command of `destroy_pfile`. -/
def UserConfs.destroyPfile (conf : UserConfs) (procid : ℕ) : Exec (List Char) := do
  let id ← sprintfDecimal 4 procid
  strcpyPath ("rm ".toList ++ conf.tempfilespath ++ tmpFile ++ id)

/-- A character that means nothing to a shell. -/
def PlainChar (c : Char) : Prop := c.isAlphanum = true ∨ c ∈ "/._-+,:@%".toList

instance : DecidablePred PlainChar := fun _ => inferInstanceAs (Decidable (_ ∨ _))

/-- The shell that `system` calls: the words that it reads in a command line.  Arguments of plain characters, and of
equal signs, are cut at their blanks. -/
structure Shell where
  words : List Char → List (List Char)
  plain : ∀ prog ∈ ["dd".toList, "rm".toList], ∀ args : List Char, (∀ c ∈ args, c = ' ' ∨ c = '=' ∨ PlainChar c) →
    words (prog ++ ' ' :: args) = prog :: tokens ' ' args

/-- The file that `dd` writes. -/
def ddOutput : List (List Char) → Option (List Char)
  | [] => none
  | _ :: args => (args.find? fun arg => "of=".toList.isPrefixOf arg).map (List.drop 3)

/-- The names that `rm` removes; what begins with a hyphen is an option. -/
def rmOperands : List (List Char) → List (List Char)
  | [] => []
  | _ :: args => args.filter fun arg => arg.head? ≠ some '-'

/-! ### What each function goes through -/

/-- The files of so many processes, or the device. -/
def UserConfs.pfiles (conf : UserConfs) (nprocs : ℕ) : List FileId :=
  if conf.rawdevice then [.rawdev] else (List.range nprocs).map .pfile

/-- The name of a file, or of the device. -/
def UserConfs.nameOf (conf : UserConfs) : FileId → List Char
  | .pfile i => conf.pfileName i
  | .rawdev => conf.rawpath

/-- `populate` fills the file it means to: `dd` by the command that the shell makes of its name, or the program itself. -/
def UserConfs.fills (sh : Shell) (conf : UserConfs) (file : FileId) : Bool :=
  if conf.populate = ddPop then
    match conf.ddPopulate (conf.nameOf file) with
    | .ok command => ddOutput (sh.words command) = some (conf.nameOf file)
    | .error _ => false
  else true

/-- The files `populate` goes through, and those that it fills. -/
def UserConfs.populating (conf : UserConfs) : List FileId :=
  conf.pfiles (if conf.mixedIO then conf.nprocs.toNat / 2 else conf.nprocs.toNat)

def UserConfs.populated (sh : Shell) (conf : UserConfs) : List FileId := conf.populating.filter (conf.fills sh)

/-- The files `static_check` goes through. -/
def UserConfs.checked (conf : UserConfs) : List FileId :=
  conf.pfiles (if conf.mixedIO then conf.nprocs.toNat / 2 else conf.nprocs.toNat)

/-- The rows that `loadmmap` makes the content tracker of. -/
def UserConfs.trackerRows (conf : UserConfs) : ℕ :=
  let nrProcs := conf.nprocs.toNat
  let nrProcs := if conf.mixedIO then nrProcs / 2 else nrProcs
  if conf.rawdevice then 1 else nrProcs

/-- The file `process_run` opens, and the row of the content tracker it goes by. -/
def ProcessCall.file (conf : UserConfs) (c : ProcessCall) : FileId :=
  if conf.rawdevice then .rawdev else .pfile c.idproc

def ProcessCall.row (conf : UserConfs) (c : ProcessCall) : ℕ := if conf.rawdevice then 0 else c.idproc

/-- What `main` populates for. -/
def UserConfs.populates (conf : UserConfs) : Bool :=
  conf.iotype = some .read && decide (conf.populate < 0) || conf.mixedIO && decide (conf.populate < 0) ||
    decide (0 < conf.populate)

/-- Every file that is opened in a run.  A file of a process is opened with `O_CREAT`, also to be read or checked. -/
def UserConfs.opened (conf : UserConfs) : List FileId :=
  (if conf.populates then conf.populating else []) ++ conf.launchBenchmark.map (ProcessCall.file conf) ++
    if conf.integrity = 1 ∨ conf.integrity = 3 then conf.checked else []

/-- `destroy_pfile` removes the file of the process. -/
def UserConfs.destroys (sh : Shell) (conf : UserConfs) (procid : ℕ) : Bool :=
  match conf.destroyPfile procid with
  | .ok command => conf.pfileName procid ∈ rmOperands (sh.words command)
  | .error _ => false

/-- The files `launch_benchmark` destroys. -/
def UserConfs.destroyed (sh : Shell) (conf : UserConfs) : List FileId :=
  if conf.destroypfile = 1 ∧ conf.rawdevice = false then
    ((List.range conf.nrProcW).filter (conf.destroys sh)).map .pfile else []

/-! ### How they fit together -/

/-- **Every process of a mixed test has a file of the test**, one that is populated, checked and has a row of the content
tracker; every file of a process has a name that fits and one writer, and none is left behind. -/
structure UserConfs.Mapped (sh : Shell) (conf : UserConfs) : Prop where
  idproc : ∀ c ∈ conf.launchBenchmark, c.idproc < conf.nprocs.toNat / 2
  name : ∀ i, .pfile i ∈ conf.opened → conf.createPfile i = .ok (conf.pfileName i)
  populated : ∀ c ∈ conf.launchBenchmark, c.file conf ∈ conf.populated sh
  checked : ∀ c ∈ conf.launchBenchmark, c.file conf ∈ conf.checked
  row : ∀ c ∈ conf.launchBenchmark, c.row conf < conf.trackerRows
  writer : ∀ i, .pfile i ∈ conf.populated sh →
    ∃! k, k < conf.nprocs.toNat ∧ (conf.processCall k).iotype = some .write ∧ (conf.processCall k).file conf = .pfile i
  destroyed : conf.destroypfile = 1 → ∀ i, .pfile i ∈ conf.opened → .pfile i ∈ conf.destroyed sh

/-- The command that fills the file, and the one that removes it. -/
def UserConfs.ddCommand (conf : UserConfs) (file : FileId) : List Char :=
  "dd if=/dev/zero of=".toList ++ conf.nameOf file ++ " bs=1M count=".toList ++ decimal (conf.filesize / 1024 / 1024)

def UserConfs.rmCommand (conf : UserConfs) (procid : ℕ) : List Char :=
  "rm ".toList ++ conf.tempfilespath ++ tmpFile ++ decimal procid

/-- **The lengths fit** the arrays that the names and the commands are put together in. -/
structure UserConfs.LengthsFit (conf : UserConfs) : Prop where
  create : conf.rawdevice = false → conf.nprocs.toNat / 2 ≤ 1000 ∧
    ∀ i < conf.nprocs.toNat / 2, (conf.pfileName i).length < pathSize
  dd : conf.populate = ddPop → conf.filesize / 1024 / 1024 < 10 ^ 9 ∧
    ∀ file ∈ conf.populating, (conf.ddCommand file).length < pathSize
  rm : conf.destroypfile = 1 → conf.rawdevice = false →
    ∀ i < conf.nprocs.toNat / 2, (conf.rmCommand i).length < pathSize

/-- **The names fit**: also into what the shell makes of a command. -/
structure UserConfs.NamesFit (sh : Shell) (conf : UserConfs) : Prop extends conf.LengthsFit where
  ddWord : conf.populate = ddPop → ∀ file ∈ conf.populating,
    ddOutput (sh.words (conf.ddCommand file)) = some (conf.nameOf file)
  rmWord : conf.destroypfile = 1 → conf.rawdevice = false →
    ∀ i < conf.nprocs.toNat / 2, conf.pfileName i ∈ rmOperands (sh.words (conf.rmCommand i))

/-- A path that a shell leaves as it is, and `rm` does not take for an option. -/
structure UserConfs.PlainPaths (conf : UserConfs) : Prop where
  temp : ∀ c ∈ conf.tempfilespath, PlainChar c
  head : conf.tempfilespath.head? ≠ some '-'
  raw : ∀ c ∈ conf.rawpath, PlainChar c

section Names

variable {sh : Shell} {conf : UserConfs} {i n size : ℕ} {file : FileId} {s : List Char}

theorem sprintfDecimal_eq_ok : sprintfDecimal size n = .ok s ↔ (decimal n).length < size ∧ decimal n = s := by
  unfold sprintfDecimal
  split
  next h => simp [h]
  next h => simp [h]

/-- An array of `size + 1` characters is enough up to `10 ^ size`. -/
theorem length_decimal_lt (hsize : 0 < size) : (decimal n).length < size + 1 ↔ n < 10 ^ size := by
  rw [Nat.lt_succ_iff]
  exact Nat.length_toDigits_le_iff (by decide) hsize

theorem strcpyPath_eq_ok {r : List Char} : strcpyPath s = .ok r ↔ s.length < pathSize ∧ s = r := by
  unfold strcpyPath
  split
  next h => simp [h]
  next h => simp [h]

theorem UserConfs.createPfile_eq_ok :
    conf.createPfile i = .ok (conf.pfileName i) ↔ i < 1000 ∧ (conf.pfileName i).length < pathSize := by
  simp only [createPfile, bind_eq_ok, sprintfDecimal_eq_ok, strcpyPath_eq_ok]
  constructor
  · rintro ⟨id, ⟨hid, rfl⟩, hlength, -⟩
    exact ⟨(length_decimal_lt (by decide)).mp hid, hlength⟩
  · rintro ⟨hi, hlength⟩
    exact ⟨_, ⟨(length_decimal_lt (by decide)).mpr hi, rfl⟩, hlength, rfl⟩

theorem UserConfs.fills_iff (h : conf.populate = ddPop) : conf.fills sh file ↔
    conf.filesize / 1024 / 1024 < 10 ^ 9 ∧ (conf.ddCommand file).length < pathSize ∧
      ddOutput (sh.words (conf.ddCommand file)) = some (conf.nameOf file) := by
  have hcommand : conf.ddPopulate (conf.nameOf file) = .ok (conf.ddCommand file) ↔
      conf.filesize / 1024 / 1024 < 10 ^ 9 ∧ (conf.ddCommand file).length < pathSize := by
    simp only [ddPopulate, bind_eq_ok, sprintfDecimal_eq_ok, strcpyPath_eq_ok]
    constructor
    · rintro ⟨id, ⟨hid, rfl⟩, hlength, -⟩
      exact ⟨(length_decimal_lt (by decide)).mp hid, hlength⟩
    · rintro ⟨hn, hlength⟩
      exact ⟨_, ⟨(length_decimal_lt (by decide)).mpr hn, rfl⟩, hlength, rfl⟩
  have hok : ∀ command, conf.ddPopulate (conf.nameOf file) = .ok command → command = conf.ddCommand file := by
    simp only [ddPopulate, bind_eq_ok, sprintfDecimal_eq_ok, strcpyPath_eq_ok]
    rintro command ⟨id, ⟨-, rfl⟩, -, rfl⟩
    rfl
  rw [← and_assoc, ← hcommand, fills, if_pos h]
  split
  next command heq => simp [heq, hok command heq]
  next e heq => simp [heq]

theorem UserConfs.destroys_iff : conf.destroys sh i ↔ i < 1000 ∧ (conf.rmCommand i).length < pathSize ∧
    conf.pfileName i ∈ rmOperands (sh.words (conf.rmCommand i)) := by
  have hcommand : ∀ command, conf.destroyPfile i = .ok command ↔
      (i < 1000 ∧ (conf.rmCommand i).length < pathSize) ∧ command = conf.rmCommand i := by
    intro command
    simp only [destroyPfile, bind_eq_ok, sprintfDecimal_eq_ok, strcpyPath_eq_ok]
    constructor
    · rintro ⟨id, ⟨hid, rfl⟩, hlength, rfl⟩
      exact ⟨⟨(length_decimal_lt (by decide)).mp hid, hlength⟩, rfl⟩
    · rintro ⟨⟨hi, hlength⟩, rfl⟩
      exact ⟨_, ⟨(length_decimal_lt (by decide)).mpr hi, rfl⟩, hlength, rfl⟩
  rw [destroys]
  split
  next command heq =>
    obtain ⟨h, rfl⟩ := (hcommand command).mp heq
    simp [h]
  next e heq =>
    refine ⟨fun h => absurd h (by simp), fun h => ?_⟩
    rw [(hcommand _).mpr ⟨⟨h.1, h.2.1⟩, rfl⟩] at heq
    cases heq

/-! The names as the shell sees them. -/

theorem tmpFile_eq : tmpFile = 'd' :: "edisbench_0010test".toList := by decide +kernel

theorem PlainChar.ne_space {c : Char} (h : PlainChar c) : c ≠ ' ' := by
  rintro rfl
  exact absurd h (by decide)

theorem PlainChar.of_mem_decimal {c : Char} (h : c ∈ decimal n) : PlainChar c := by
  left
  rw [Char.isAlphanum, isDigit_of_mem_decimal h, Bool.or_true]

theorem plainChar_tmpFile : ∀ c ∈ tmpFile, PlainChar c := List.all_iff_forall_prop.mp (by decide +kernel)

theorem UserConfs.PlainPaths.pfileName (h : conf.PlainPaths) (i : ℕ) : ∀ c ∈ conf.pfileName i, PlainChar c := by
  intro c hc
  rw [UserConfs.pfileName, List.mem_append, List.mem_append] at hc
  rcases hc with (hc | hc) | hc
  · exact h.temp c hc
  · exact plainChar_tmpFile c hc
  · exact PlainChar.of_mem_decimal hc

theorem UserConfs.PlainPaths.nameOf (h : conf.PlainPaths) (file : FileId) : ∀ c ∈ conf.nameOf file, PlainChar c := by
  cases file with
  | pfile i => exact h.pfileName i
  | rawdev => exact h.raw

theorem UserConfs.pfileName_head (h : conf.tempfilespath.head? ≠ some '-') (i : ℕ) :
    (conf.pfileName i).head? ≠ some '-' := by
  rw [UserConfs.pfileName]
  cases hpath : conf.tempfilespath with
  | nil =>
    rw [List.nil_append, tmpFile_eq]
    simp
  | cons c cs =>
    rw [hpath] at h
    simpa using h

/-- **A plain name is one word**: `rm` gets the name of the file. -/
theorem UserConfs.PlainPaths.rmWord (h : conf.PlainPaths) (i : ℕ) :
    conf.pfileName i ∈ rmOperands (sh.words (conf.rmCommand i)) := by
  have hwords : sh.words (conf.rmCommand i) = ["rm".toList, conf.pfileName i] := by
    have hplain := h.pfileName i
    have hcommand : conf.rmCommand i = "rm".toList ++ ' ' :: conf.pfileName i := by
      simp [rmCommand, UserConfs.pfileName]
    rw [hcommand, sh.plain _ (by decide) _ fun c hc => .inr (.inr (hplain c hc)),
      tokens_of_notMem (fun hmem => (hplain _ hmem).ne_space rfl)]
    simp [UserConfs.pfileName, tmpFile_eq]
  rw [hwords]
  simp [rmOperands, pfileName_head h.head i]

/-- The words of the command of `dd`. -/
theorem ddWords_eq (name count : List Char) :
    "dd if=/dev/zero of=".toList ++ name ++ " bs=1M count=".toList ++ count = "dd".toList ++ ' ' ::
      ("if=/dev/zero".toList ++ ' ' :: (("of=".toList ++ name) ++ ' ' :: ("bs=1M".toList ++ ' ' ::
        ("count=".toList ++ count)))) := by
  have hif : "dd if=/dev/zero of=".toList = "dd".toList ++ ' ' :: ("if=/dev/zero".toList ++ ' ' :: "of=".toList) := by
    decide +kernel
  have hbs : " bs=1M count=".toList = ' ' :: ("bs=1M".toList ++ ' ' :: "count=".toList) := by decide +kernel
  rw [hif, hbs]
  simp only [List.append_assoc, List.cons_append]

/-- `dd` gets it behind `of=`. -/
theorem UserConfs.PlainPaths.ddWord (h : conf.PlainPaths) (file : FileId) :
    ddOutput (sh.words (conf.ddCommand file)) = some (conf.nameOf file) := by
  have hplain := h.nameOf file
  have hcommand : conf.ddCommand file = _ := ddWords_eq (conf.nameOf file) (decimal (conf.filesize / 1024 / 1024))
  have hname : ' ' ∉ "of=".toList ++ conf.nameOf file := by
    simpa using fun hmem => (hplain _ hmem).ne_space rfl
  have hcount : ' ' ∉ "count=".toList ++ decimal (conf.filesize / 1024 / 1024) := by
    simpa using notMem_decimal (by decide)
  have hchars : ∀ c ∈ "if=/dev/zero".toList ++ ' ' :: (("of=".toList ++ conf.nameOf file) ++ ' ' ::
      ("bs=1M".toList ++ ' ' :: ("count=".toList ++ decimal (conf.filesize / 1024 / 1024)))),
      c = ' ' ∨ c = '=' ∨ PlainChar c := by
    have hliteral : ∀ c ∈ "if=/dev/zero".toList ++ "of=".toList ++ "bs=1M".toList ++ "count=".toList,
        c = ' ' ∨ c = '=' ∨ PlainChar c :=
      List.all_iff_forall_prop.mp (by decide +kernel)
    intro c hc
    simp only [List.mem_append, List.mem_cons] at hc hliteral
    rcases hc with hc | hc | (hc | hc) | hc | hc | hc | hc | hc
    · exact hliteral c (.inl (.inl (.inl hc)))
    · exact .inl hc
    · exact hliteral c (.inl (.inl (.inr hc)))
    · exact .inr (.inr (hplain c hc))
    · exact .inl hc
    · exact hliteral c (.inl (.inr hc))
    · exact .inl hc
    · exact hliteral c (.inr hc)
    · exact .inr (.inr (PlainChar.of_mem_decimal hc))
  have hif : ' ' ∉ "if=/dev/zero".toList := by decide +kernel
  have hbs : ' ' ∉ "bs=1M".toList := by decide +kernel
  rw [hcommand, sh.plain _ (by decide) _ hchars, tokens, getlines_append hif, getlines_append hname,
    getlines_append hbs, getlines_last hcount (by simp)]
  simp [ddOutput]

/-- **A blank ends the word**: no operand of `rm` has one. -/
theorem UserConfs.rmWord_of_blank (hplain : ∀ c ∈ conf.tempfilespath, c = ' ' ∨ PlainChar c)
    (hblank : ' ' ∈ conf.tempfilespath) (i : ℕ) : conf.pfileName i ∉ rmOperands (sh.words (conf.rmCommand i)) := by
  have hcommand : conf.rmCommand i = "rm".toList ++ ' ' :: conf.pfileName i := by
    simp [rmCommand, pfileName]
  have hchars : ∀ c ∈ conf.pfileName i, c = ' ' ∨ c = '=' ∨ PlainChar c := by
    intro c hc
    rw [pfileName, List.mem_append, List.mem_append] at hc
    rcases hc with (hc | hc) | hc
    · exact (hplain c hc).imp id .inr
    · exact .inr (.inr (plainChar_tmpFile c hc))
    · exact .inr (.inr (PlainChar.of_mem_decimal hc))
  rw [hcommand, sh.plain _ (by decide) _ hchars]
  intro hmem
  have hspace := notMem_of_mem_tokens (List.mem_filter.mp hmem).1
  simp [pfileName, hblank] at hspace

end Names

section Mixed

variable {sh : Shell} {conf : UserConfs} {c : ProcessCall} {i n : ℕ}

theorem UserConfs.pfile_mem_pfiles : .pfile i ∈ conf.pfiles n ↔ conf.rawdevice = false ∧ i < n := by
  unfold pfiles
  cases conf.rawdevice <;> simp

/-- A file that stays in range is one of the files. -/
theorem ProcessCall.file_mem_pfiles (h : c.idproc < n) : c.file conf ∈ conf.pfiles n := by
  unfold file UserConfs.pfiles
  cases conf.rawdevice
  · simpa using h
  · simp

theorem ProcessCall.file_eq_pfile : c.file conf = .pfile i ↔ conf.rawdevice = false ∧ c.idproc = i := by
  unfold file
  cases conf.rawdevice <;> simp

theorem UserConfs.populating_mixed (h : conf.mixedIO = true) :
    conf.populating = conf.pfiles (conf.nprocs.toNat / 2) := by
  simp [populating, h]

theorem UserConfs.checked_mixed (h : conf.mixedIO = true) : conf.checked = conf.pfiles (conf.nprocs.toNat / 2) := by
  simp [checked, h]

theorem UserConfs.writes_iff (h : conf.mixedIO = true) {k : ℕ} :
    (conf.processCall k).iotype = some .write ↔ k < conf.nprocs.toNat / 2 := by
  simp only [processCall, h, if_true]
  split
  next hlt => simp [hlt]
  next hlt => simp [hlt]

/-- A writer keeps its number, a reader starts again from zero. -/
theorem UserConfs.processCall_idproc (h : conf.mixedIO = true) (k : ℕ) : (conf.processCall k).idproc =
    if k < conf.nprocs.toNat / 2 then k else k - conf.nprocs.toNat / 2 := by
  simp only [processCall, h, if_true]
  split <;> rfl

/-- With as many readers as writers, every number is one of a file. -/
theorem UserConfs.idproc_lt (h : conf.mixedIO = true) (heven : Even conf.nprocs) (hc : c ∈ conf.launchBenchmark) :
    c.idproc < conf.nprocs.toNat / 2 := by
  obtain ⟨k, hk, rfl⟩ := mem_launchBenchmark.mp hc
  obtain ⟨half, hhalf⟩ := heven
  rw [processCall_idproc h]
  split <;> omega

/-- With one reader more, the last one has a number too many. -/
theorem UserConfs.last_idproc (h : conf.mixedIO = true) (hprocs : 2 ≤ conf.nprocs) (hodd : ¬ Even conf.nprocs) :
    (conf.processCall (conf.nprocs.toNat - 1)).idproc = conf.nprocs.toNat / 2 := by
  rw [Int.not_even_iff_odd] at hodd
  obtain ⟨half, hhalf⟩ := hodd
  rw [processCall_idproc h, if_neg (by omega)]
  omega

theorem UserConfs.pfile_mem_opened (h : ∀ c ∈ conf.launchBenchmark, c.idproc < n)
    (hpopulating : conf.populating = conf.pfiles n)
    (hchecked : conf.checked = conf.pfiles n) (hi : .pfile i ∈ conf.opened) : conf.rawdevice = false ∧ i < n := by
  simp only [opened, List.mem_append, List.mem_map] at hi
  rcases hi with (hi | ⟨c, hc, hfile⟩) | hi
  · split at hi
    · exact pfile_mem_pfiles.mp (hpopulating ▸ hi)
    · cases hi
  · obtain ⟨hraw, rfl⟩ := ProcessCall.file_eq_pfile.mp hfile
    exact ⟨hraw, h c hc⟩
  · split at hi
    · exact pfile_mem_pfiles.mp (hchecked ▸ hi)
    · cases hi

/-- Every file has the writer of its number. -/
theorem UserConfs.exists_launched (h : conf.mixedIO = true) {file : FileId}
    (hfile : file ∈ conf.pfiles (conf.nprocs.toNat / 2)) (hprocs : 2 ≤ conf.nprocs) :
    ∃ c ∈ conf.launchBenchmark, c.file conf = file := by
  cases file with
  | pfile i =>
    obtain ⟨hraw, hi⟩ := pfile_mem_pfiles.mp hfile
    refine ⟨_, mem_launchBenchmark.mpr ⟨i, by omega, rfl⟩, ?_⟩
    rw [ProcessCall.file_eq_pfile, processCall_idproc h, if_pos hi]
    exact ⟨hraw, rfl⟩
  | rawdev =>
    refine ⟨_, mem_launchBenchmark.mpr ⟨0, by omega, rfl⟩, ?_⟩
    cases hraw : conf.rawdevice <;> simp_all [pfiles, ProcessCall.file]

theorem UserConfs.mem_opened (h : conf.mixedIO = true) (hprocs : 2 ≤ conf.nprocs)
    (hraw : conf.rawdevice = false) (hi : i < conf.nprocs.toNat / 2) : .pfile i ∈ conf.opened := by
  obtain ⟨c, hc, hfile⟩ := exists_launched h (pfile_mem_pfiles.mpr ⟨hraw, hi⟩) hprocs
  simp only [opened, List.mem_append]
  exact .inl (.inr (List.mem_map.mpr ⟨c, hc, hfile⟩))

/-- What fits the files, fills and removes them. -/
theorem UserConfs.Mapped.namesFit (h : conf.Mapped sh) (hmixed : conf.mixedIO = true) (hprocs : 2 ≤ conf.nprocs) :
    conf.NamesFit sh := by
  have hfill : conf.populate = ddPop → ∀ file ∈ conf.populating, conf.filesize / 1024 / 1024 < 10 ^ 9 ∧
      (conf.ddCommand file).length < pathSize ∧ ddOutput (sh.words (conf.ddCommand file)) = some (conf.nameOf file) := by
    intro hpop file hfile
    obtain ⟨c, hc, rfl⟩ := exists_launched hmixed (populating_mixed hmixed ▸ hfile) hprocs
    exact (fills_iff hpop).mp (List.mem_filter.mp (h.populated c hc)).2
  have hremove : conf.destroypfile = 1 → conf.rawdevice = false → ∀ i < conf.nprocs.toNat / 2, conf.destroys sh i := by
    intro hdestroy hraw i hi
    have hmem := h.destroyed hdestroy i (mem_opened hmixed hprocs hraw hi)
    simp only [UserConfs.destroyed, hdestroy, hraw, and_self, if_true] at hmem
    obtain ⟨j, hj, hij⟩ := List.mem_map.mp hmem
    cases hij
    exact (List.mem_filter.mp hj).2
  have hcreate : conf.rawdevice = false → ∀ i < conf.nprocs.toNat / 2, i < 1000 ∧ (conf.pfileName i).length < pathSize :=
    fun hraw i hi => createPfile_eq_ok.mp (h.name i (mem_opened hmixed hprocs hraw hi))
  have hne : ∃ file, file ∈ conf.populating := by
    rw [populating_mixed hmixed]
    cases hraw : conf.rawdevice with
    | false => exact ⟨_, pfile_mem_pfiles.mpr ⟨hraw, (show 0 < conf.nprocs.toNat / 2 by omega)⟩⟩
    | true => exact ⟨.rawdev, by simp [pfiles, hraw]⟩
  exact {
    create := fun hraw => by
      refine ⟨?_, fun i hi => (hcreate hraw i hi).2⟩
      have hlast := (hcreate hraw (conf.nprocs.toNat / 2 - 1) (by omega)).1
      omega
    dd := fun hpop => by
      obtain ⟨file, hfile⟩ := hne
      exact ⟨(hfill hpop file hfile).1, fun file hfile => (hfill hpop file hfile).2.1⟩
    rm := fun hdestroy hraw i hi => (destroys_iff.mp (hremove hdestroy hraw i hi)).2.1
    ddWord := fun hpop file hfile => (hfill hpop file hfile).2.2
    rmWord := fun hdestroy hraw i hi => (destroys_iff.mp (hremove hdestroy hraw i hi)).2.2 }

/-- If the names fit, `populate` fills every file that it goes through. -/
theorem UserConfs.NamesFit.populated_eq (h : conf.NamesFit sh) : conf.populated sh = conf.populating := by
  rw [populated, List.filter_eq_self]
  intro file hfile
  by_cases hpop : conf.populate = ddPop
  · exact (fills_iff hpop).mpr ⟨(h.dd hpop).1, (h.dd hpop).2 file hfile, h.ddWord hpop file hfile⟩
  · rw [fills, if_neg hpop]

/-- **When the processes of a mixed test fit the files**: exactly if their number is even, and the names of the files
fit; of a plain path the lengths are all that counts, and of a path with a blank nothing is removed. -/
theorem mapped_iff (sh : Shell) (hmixed : conf.mixedIO = true) (hprocs : 2 ≤ conf.nprocs) :
    (conf.Mapped sh ↔ Even conf.nprocs ∧ conf.NamesFit sh) ∧
    (conf.PlainPaths → (conf.NamesFit sh ↔ conf.LengthsFit)) ∧
    ((∀ c ∈ conf.tempfilespath, c = ' ' ∨ PlainChar c) → ' ' ∈ conf.tempfilespath → conf.rawdevice = false →
      conf.destroypfile = 1 → ¬ conf.NamesFit sh) := by
  refine ⟨⟨fun h => ⟨?_, h.namesFit hmixed hprocs⟩, fun ⟨heven, hnames⟩ => ?_⟩, fun hplain => ?_, ?_⟩
  · by_contra hodd
    have hlast := h.idproc _ (mem_launchBenchmark.mpr ⟨conf.nprocs.toNat - 1, by omega, rfl⟩)
    rw [UserConfs.last_idproc hmixed hprocs hodd] at hlast
    exact lt_irrefl _ hlast
  · have hlt : ∀ c ∈ conf.launchBenchmark, c.idproc < conf.nprocs.toNat / 2 := fun c hc =>
      UserConfs.idproc_lt hmixed heven hc
    have hpopulating := UserConfs.populating_mixed hmixed
    have hpopulated := hnames.populated_eq.trans hpopulating
    have hchecked := UserConfs.checked_mixed hmixed
    refine ⟨hlt, fun i hi => ?_, fun c hc => ?_, fun c hc => ?_, fun c hc => ?_, fun i hi => ?_, fun hdestroy i hi => ?_⟩
    · obtain ⟨hraw, hi⟩ := UserConfs.pfile_mem_opened hlt hpopulating hchecked hi
      have hcreate := hnames.create hraw
      exact UserConfs.createPfile_eq_ok.mpr ⟨by omega, hcreate.2 i hi⟩
    · rw [hpopulated]
      exact ProcessCall.file_mem_pfiles (hlt c hc)
    · rw [hchecked]
      exact ProcessCall.file_mem_pfiles (hlt c hc)
    · simp only [ProcessCall.row, UserConfs.trackerRows, hmixed, if_true]
      split
      · exact Nat.one_pos
      · exact hlt c hc
    · rw [hpopulated] at hi
      obtain ⟨hraw, hi⟩ := UserConfs.pfile_mem_pfiles.mp hi
      refine ⟨i, ⟨by omega, (UserConfs.writes_iff hmixed).mpr hi, ?_⟩, ?_⟩
      · rw [ProcessCall.file_eq_pfile, UserConfs.processCall_idproc hmixed, if_pos hi]
        exact ⟨hraw, rfl⟩
      · rintro k ⟨-, hwrite, hfile⟩
        rw [ProcessCall.file_eq_pfile, UserConfs.processCall_idproc hmixed,
          if_pos ((UserConfs.writes_iff hmixed).mp hwrite)] at hfile
        exact hfile.2
    · obtain ⟨hraw, hi⟩ := UserConfs.pfile_mem_opened hlt hpopulating hchecked hi
      have hcreate := (hnames.create hraw).1
      simp only [UserConfs.destroyed, UserConfs.nrProcW, hmixed, hdestroy, hraw, and_self, if_true]
      refine List.mem_map.mpr ⟨i, List.mem_filter.mpr ⟨List.mem_range.mpr hi, ?_⟩, rfl⟩
      exact UserConfs.destroys_iff.mpr ⟨by omega, hnames.rm hdestroy hraw i hi, hnames.rmWord hdestroy hraw i hi⟩
  · exact ⟨fun h => h.toLengthsFit, fun h =>
      ⟨h, fun _ file _ => hplain.ddWord file, fun _ _ i _ => hplain.rmWord i⟩⟩
  · intro hplain hblank hraw hdestroy h
    exact UserConfs.rmWord_of_blank hplain hblank 0 (h.rmWord hdestroy hraw 0 (by omega))

end Mixed

/-- A shell that cuts a command at its blanks, whatever its characters. -/
def blankShell : Shell where
  words := tokens ' '
  plain := fun prog hprog args hargs => by
    have hne : prog ≠ [] := by
      revert prog
      decide
    have hprog : ' ' ∉ prog := by
      revert prog
      decide
    rw [tokens, getlines_append hprog, List.filter_cons, if_pos (by simpa using hne), tokens]

/-- A mixed test of four processes, with two files. -/
theorem fourProcesses_mapped : ∃ conf, mainConf twoConfigs (["-p", "-m", "-s1", "-fc"].map String.toList) = .ok conf ∧
    conf.nprocs = 4 ∧ conf.destroypfile = 1 ∧ conf.Mapped blankShell := by
  have h : okWith (mainConf twoConfigs (["-p", "-m", "-s1", "-fc"].map String.toList)) fun conf =>
      (conf.mixedIO = true ∧ conf.nprocs = 4 ∧ conf.destroypfile = 1 ∧ conf.populate ≠ ddPop) ∧
      ((conf.tempfilespath.all fun c => PlainChar c) ∧ conf.tempfilespath.head? ≠ some '-' ∧
        conf.rawpath.all fun c => PlainChar c) ∧
      ∀ i ∈ List.range 2, (conf.pfileName i).length < pathSize ∧ (conf.rmCommand i).length < pathSize := by
    decide +kernel
  obtain ⟨conf, hconf, h⟩ := exists_of_okWith h
  obtain ⟨⟨hmixed, hnprocs, hdestroy, hpop⟩, ⟨htemp, hhead, hrawpath⟩, hlength⟩ := of_decide_eq_true h
  have hhalf : conf.nprocs.toNat / 2 = 2 := by omega
  have hlengths : conf.LengthsFit :=
    { create := fun _ => ⟨by omega, fun i hi => (hlength i (List.mem_range.mpr (hhalf ▸ hi))).1⟩
      dd := fun h => absurd h hpop
      rm := fun _ _ i hi => (hlength i (List.mem_range.mpr (hhalf ▸ hi))).2 }
  obtain ⟨hmapped, hplain, -⟩ := mapped_iff blankShell hmixed (by omega)
  have hpaths : conf.PlainPaths :=
    ⟨List.all_iff_forall_prop.mp htemp, hhead, List.all_iff_forall_prop.mp hrawpath⟩
  exact ⟨conf, hconf, hnprocs, hdestroy, hmapped.mpr ⟨⟨2, by omega⟩, (hplain hpaths).mpr hlengths⟩⟩

/-- A mixed test of three processes: whatever the shell, the second reader goes to a file that is not populated and not
destroyed, and to a row behind the last one. -/
theorem threeProcesses_not_mapped : ∃ conf c,
    mainConf threeProcesses (["-p", "-m", "-s1", "-fc"].map String.toList) = .ok conf ∧ conf.mixedIO = true ∧
    conf.nprocs = 3 ∧ conf.destroypfile = 1 ∧ conf.rawdevice = false ∧ c ∈ conf.launchBenchmark ∧
    c.iotype = some .read ∧ c.idproc = 1 ∧ conf.trackerRows ≤ c.row conf ∧ .pfile 1 ∈ conf.opened ∧
    ∀ sh, c.file conf ∉ conf.populated sh ∧ .pfile 1 ∉ conf.destroyed sh ∧ ¬ conf.Mapped sh := by
  have h : okWith (mainConf threeProcesses (["-p", "-m", "-s1", "-fc"].map String.toList)) fun conf =>
      conf.mixedIO = true ∧ conf.nprocs = 3 ∧ conf.destroypfile = 1 ∧ conf.rawdevice = false ∧
        ⟨1, 1, conf.ratior, some .read⟩ ∈ conf.launchBenchmark ∧ conf.populating = [.pfile 0] ∧ conf.trackerRows = 1 ∧
        .pfile 1 ∈ conf.opened ∧ conf.nrProcW = 1 := by
    decide +kernel
  obtain ⟨conf, hconf, h⟩ := exists_of_okWith h
  obtain ⟨hmixed, hnprocs, hdestroy, hraw, hmem, hpopulating, hrows, hopened, hwriters⟩ := of_decide_eq_true h
  have hfile : ProcessCall.file conf ⟨1, 1, conf.ratior, some .read⟩ = .pfile 1 := by simp [ProcessCall.file, hraw]
  have hrow : ProcessCall.row conf ⟨1, 1, conf.ratior, some .read⟩ = 1 := by simp [ProcessCall.row, hraw]
  refine ⟨conf, _, hconf, hmixed, hnprocs, hdestroy, hraw, hmem, rfl, rfl, by rw [hrow, hrows], hopened,
    fun sh => ⟨fun hmem => ?_, fun hmem => ?_, fun hmapped => ?_⟩⟩
  · rw [hfile, UserConfs.populated, hpopulating] at hmem
    exact absurd (List.mem_filter.mp hmem).1 (by decide)
  · simp only [UserConfs.destroyed, hdestroy, hraw, hwriters, and_self, if_true] at hmem
    obtain ⟨i, hi, hpfile⟩ := List.mem_map.mp hmem
    have hi := List.mem_range.mp (List.mem_filter.mp hi).1
    cases hpfile
    omega
  · have hlt : 1 < conf.nprocs.toNat / 2 := hmapped.idproc _ hmem
    omega

end Dedisbench
