import Dedisbench.Bench.Options

/-!
# What `main` accepts

An option may come more than once, and so may a value of the configuration file; then the last one counts.  Of several
files, the first one is read.  `accept_of_mainConf` says what an accepted configuration is made of, for every command
line.
-/

namespace Dedisbench

open ExceptRun

/-- The options that `main` gets to. -/
def options : List (List Char) → List Opt
  | ('-' :: arg) :: argv =>
    match Opt.of arg with
    | none => []
    | some o => o :: options argv
  | _ => []

variable {env : Environment} {argv : List (List Char)} {opts : List Opt} {s s' : UserConfs × Bool} {conf : UserConfs}

/-- The loop over the options, each option once. -/
theorem optionLoop_eq_ok (h : optionLoop env s argv = .ok s') : (options argv).foldlM (optionStep env) s = .ok s' := by
  fun_induction options argv generalizing s with
  | case1 arg argv hnone =>
    rw [optionLoop, hnone] at h
    cases h
  | case2 arg argv o ho ih =>
    rw [optionLoop, ho] at h
    obtain ⟨t, ht, h⟩ := bind_eq_ok.mp h
    exact foldlM_cons_eq_ok.mpr ⟨t, ht, ih h⟩
  | case3 argv hnot =>
    rw [optionLoop] at h
    · exact h
    · exact hnot

/-- An option sets its fields, whatever file it reads. -/
theorem optionStep_set {o : Opt} (h : optionStep env s o = .ok s') :
    s'.1.toNecessaryConfs = s.1.toNecessaryConfs.set o := by
  obtain ⟨⟨nec, opt, n⟩, b⟩ := s
  by_cases hfile : o.IsFile
  · obtain ⟨arg, rfl⟩ := hfile
    cases b with
    | true =>
      cases h
      rfl
    | false =>
      have h : (iniParse env arg ⟨nec, opt, n⟩ >>= fun conf => .ok (conf, true)) = .ok s' := h
      rw [iniParse_eq] at h
      simp only [bind_eq_ok] at h
      obtain ⟨_, ⟨opt', -, h'⟩, h⟩ := h
      cases h'
      cases h
      rfl
  · obtain ⟨-, rfl⟩ := (optionStep_eq_ok hfile).mp h
    rfl

/-- Behind the first file, no other one is read. -/
theorem options_of_read {o : OptionalConfs} {nec : NecessaryConfs} {n : ℕ}
    (h : opts.foldlM (optionStep env) (⟨nec, o, n⟩, true) = .ok s') :
    s'.1.toOptionalConfs = o ∧ s'.1.totblocks = n ∧ s'.2 = true := by
  refine foldlM_inv (P := fun t : UserConfs × Bool => t.1.toOptionalConfs = o ∧ t.1.totblocks = n ∧ t.2 = true)
    (fun t x t' _ ht hstep => ?_) ⟨rfl, rfl, rfl⟩ h
  obtain ⟨⟨nec', o', n'⟩, b⟩ := t
  obtain ⟨rfl, rfl, rfl⟩ := ht
  by_cases hfile : x.IsFile
  · obtain ⟨arg, rfl⟩ := hfile
    cases hstep
    exact ⟨rfl, rfl, rfl⟩
  · obtain ⟨-, rfl⟩ := (optionStep_eq_ok hfile).mp hstep
    exact ⟨rfl, rfl, rfl⟩

/-- The first file is read, if there is one. -/
theorem options_of_unread {o : OptionalConfs} {nec : NecessaryConfs} {n : ℕ}
    (h : opts.foldlM (optionStep env) (⟨nec, o, n⟩, false) = .ok s') :
    s'.1.totblocks = n ∧ (s'.2 = false ∧ s'.1.toOptionalConfs = o ∧ filename opts = defconf ∨
      s'.2 = true ∧ ∃ time mixed, fileConfs env time mixed (filename opts) o = .ok s'.1.toOptionalConfs) := by
  induction opts generalizing nec with
  | nil =>
    cases foldlM_nil_eq_ok.mp h
    exact ⟨rfl, .inl ⟨rfl, rfl, rfl⟩⟩
  | cons x opts ih =>
    obtain ⟨t, ht, h⟩ := foldlM_cons_eq_ok.mp h
    by_cases hfile : x.IsFile
    · obtain ⟨arg, rfl⟩ := hfile
      have ht : (iniParse env arg ⟨nec, o, n⟩ >>= fun conf => .ok (conf, true)) = .ok t := ht
      rw [iniParse_eq] at ht
      simp only [bind_eq_ok] at ht
      obtain ⟨_, ⟨o', ho', h'⟩, ht⟩ := ht
      cases h'
      cases ht
      obtain ⟨hopt, htot, hread⟩ := options_of_read h
      exact ⟨htot, .inr ⟨hread, _, _, hopt ▸ ho'⟩⟩
    · obtain ⟨-, rfl⟩ := (optionStep_eq_ok hfile).mp ht
      have hname : filename (x :: opts) = filename opts := by
        have hletter : decide (x.letter ≠ 'f') = true :=
          letter_ne_of_notFile (fun y hy => List.mem_singleton.mp hy ▸ hfile)
          x (List.mem_singleton_self x)
        rw [filename, List.dropWhile_cons, if_pos hletter]
        rfl
      rw [hname]
      exact ih h

/-- `main` up to the checks: what the options and the configuration file set. -/
def readConf (env : Environment) (argv : List (List Char)) : Exec UserConfs := do
  let (conf, confarg) ← optionLoop env (.init env.now, false) argv
  if confarg then .ok conf else iniParse env defconf conf

theorem mainConf_eq : mainConf env argv = readConf env argv >>= acceptConf := by
  unfold mainConf readConf
  cases optionLoop env (.init env.now, false) argv with
  | error e => rfl
  | ok s =>
    obtain ⟨conf, confarg⟩ := s
    cases confarg <;> rfl

/-- What is read: the options, all of them, each with what it sets, with the values of the first file. -/
theorem read_of_readConf (h : readConf env argv = .ok conf) :
    ∃ o time mixed, fileConfs env time mixed (filename (options argv)) (.init env.now) = .ok o ∧
      conf = ⟨given (options argv), o, 0⟩ := by
  obtain ⟨⟨⟨nec, o, n⟩, confarg⟩, hloop, h⟩ := bind_eq_ok.mp h
  replace hloop := optionLoop_eq_ok hloop
  have hset : nec = given (options argv) :=
    foldlM_part (φ := fun s : UserConfs × Bool => s.1.toNecessaryConfs) (fun _ _ _ => optionStep_set) hloop
  subst hset
  obtain ⟨htot, hread⟩ := options_of_unread hloop
  obtain rfl : n = 0 := htot
  rcases hread with ⟨hfalse, hopt, hname⟩ | ⟨htrue, time, mixed, ho⟩
  · obtain rfl : confarg = false := hfalse
    obtain rfl : o = .init env.now := hopt
    have h : iniParse env defconf ⟨given (options argv), .init env.now, 0⟩ = .ok conf := h
    rw [iniParse_eq, ← hname] at h
    obtain ⟨o, ho, hu⟩ := bind_eq_ok.mp h
    exact ⟨o, _, _, ho, (Except.ok.inj hu).symm⟩
  · obtain rfl : confarg = true := htrue
    exact ⟨o, time, mixed, ho, (Except.ok.inj h).symm⟩

/-- **What `main` accepts**: the options, all of them, each with what it sets, with the values of the first file. -/
theorem accept_of_mainConf (h : mainConf env argv = .ok conf) :
    ∃ o time mixed, fileConfs env time mixed (filename (options argv)) (.init env.now) = .ok o ∧
      acceptConf ⟨given (options argv), o, 0⟩ = .ok conf := by
  rw [mainConf_eq] at h
  obtain ⟨u, hread, haccept⟩ := bind_eq_ok.mp h
  obtain ⟨o, time, mixed, ho, rfl⟩ := read_of_readConf hread
  exact ⟨o, time, mixed, ho, haccept⟩

/-! ### The sizes of the file -/

/-- The last value of a file for a key. -/
def lastValue (key : ConfigKey) (entries : List IniEntry) : Option (List Char) :=
  (entries.filterMap fun e => if e.key = some key then some e.value else none).getLast?

variable {c c' : UserConfs} {e : IniEntry} {o o' : OptionalConfs} {time mixed : Bool} {name : List Char}

/-- What a value makes of the block size and of the size of the files. -/
theorem configHandler_sizes (h : configHandler env c e = .ok c') :
    (if e.key = some .blocksize then toUInt64 (atof e.value) = .ok c'.blockSize else c'.blockSize = c.blockSize) ∧
      c'.filesize = if e.key = some .filesize then atoll e.value else c.filesize := by
  unfold configHandler at h
  revert h
  cases e.key with
  | none =>
    intro h
    cases h
    exact ⟨rfl, rfl⟩
  | some key =>
    intro h
    cases key with
    | generalResults =>
      -- with a first token and without one, with `-t` and without it
      dsimp only at h
      split at h
      · obtain ⟨_, -, h⟩ := bind_eq_ok.mp h
        split at h <;> (cases h; exact ⟨rfl, rfl⟩)
      · rw [bind_ok] at h
        split at h <;> (cases h; exact ⟨rfl, rfl⟩)
    | accessType =>
      dsimp only at h
      split at h <;> (cases h; exact ⟨rfl, rfl⟩)
    | sync =>
      dsimp only at h
      split at h <;> (cases h; exact ⟨rfl, rfl⟩)
    | nprocs =>
      dsimp only at h
      split at h <;> (cases h; try exact ⟨rfl, rfl⟩)
    | distResults =>
      simp only [bind_eq_ok] at h
      obtain ⟨_, -, h⟩ := h
      split at h <;> (cases h; try exact ⟨rfl, rfl⟩)
    | blocksize =>
      simp only [bind_eq_ok] at h
      obtain ⟨_, hsize, h⟩ := h
      cases h
      exact ⟨hsize, rfl⟩
    | accessResults | distfile | tempfilespath | rawdevice | integrity | seed =>
      simp only [bind_eq_ok] at h
      obtain ⟨_, -, h⟩ := h
      cases h
      exact ⟨rfl, rfl⟩
    | _ =>
      cases h
      exact ⟨rfl, rfl⟩

theorem configure_sizes (h : configure env time mixed o e = .ok o') :
    (if e.key = some .blocksize then toUInt64 (atof e.value) = .ok o'.blockSize else o'.blockSize = o.blockSize) ∧
      o'.filesize = if e.key = some .filesize then atoll e.value else o.filesize := by
  obtain ⟨c, hc, h⟩ := bind_eq_ok.mp h
  cases h
  exact configHandler_sizes hc

/-- The block size of a text: the number in it, or the default where there is none. -/
def BlockSizeOf (default : ℕ) : Option (List Char) → ℕ → Prop
  | none, n => n = default
  | some text, n => toUInt64 (atof text) = .ok n

theorem fileConfs_blockSize (h : fileConfs env time mixed name o = .ok o') :
    BlockSizeOf o.blockSize (lastValue .blocksize (env.entries name)) o'.blockSize := by
  refine foldlM_last (φ := OptionalConfs.blockSize) (V := BlockSizeOf o.blockSize) (fun s e s' hstep => ?_) rfl h
  obtain ⟨hsize, -⟩ := configure_sizes hstep
  split at hsize
  next hkey => exact ⟨fun hnone => by simp [hkey] at hnone, fun text htext => by simp_all [BlockSizeOf]⟩
  next hkey => exact ⟨fun _ => hsize, fun text htext => by simp [hkey] at htext⟩

theorem fileConfs_filesize (h : fileConfs env time mixed name o = .ok o') :
    o'.filesize = ((lastValue .filesize (env.entries name)).map atoll).getD o.filesize := by
  refine foldlM_last (φ := OptionalConfs.filesize) (V := fun text n => n = (text.map atoll).getD o.filesize)
    (fun s e s' hstep => ?_) rfl h
  obtain ⟨-, hsize⟩ := configure_sizes hstep
  split at hsize
  next hkey => exact ⟨fun hnone => by simp [hkey] at hnone, fun text htext => by simp_all⟩
  next hkey => exact ⟨fun _ => hsize, fun text htext => by simp [hkey] at htext⟩

theorem toUInt64_lt {x : Float} {n : ℕ} (h : toUInt64 x = .ok n) : n < 2 ^ 64 := by
  unfold toUInt64 at h
  split at h
  · cases h
    exact x.toUInt64.toNat_lt
  · cases h

theorem BlockSizeOf.lt {n default : ℕ} {text : Option (List Char)} (h : BlockSizeOf default text n)
    (hdefault : default < 2 ^ 64) : n < 2 ^ 64 := by
  cases text with
  | none => exact h ▸ hdefault
  | some text => exact toUInt64_lt h

end Dedisbench
