import Dedisbench.Lib.Paths
import Dedisbench.Scan.Extract

/-!
# The search of a directory

`search_dir` goes through a directory and everything under it, and hands every regular file to `extract_blocks`.
It puts the name of an entry right behind the path it was given, so the path has to end with a slash: it writes
the slash behind the directories it finds, and `main` gives it what the user typed.

The system takes no path name of `PATH_MAX` characters: directories and files that lie deeper do not open, and the
search passes them over or counts them all the same.  `searchDir_scanned` says which files a search comes to, and under
which path names; `searchDir_ok` and `searchDir_fits` say when it comes back.
-/

namespace Dedisbench

open Paths ExceptRun

/-! ### File systems -/

/-- What is at a location: a regular file, with what can be read from it if it opens; a directory; anything else. -/
inductive Entry where
  | reg (content : Option (List UInt8))
  | dir
  | other
  deriving DecidableEq

/-- `d_type` -/
inductive DType where
  | reg
  | dir
  | other
  deriving DecidableEq

def Entry.dType : Entry → DType
  | .reg _ => .reg
  | .dir => .dir
  | .other => .other

/-- A tree of files, in the order in which its directories are read, and the current directory. -/
structure FileSystem where
  entries : List (Loc × Entry)
  cwd : Loc
  nodup : (entries.map Prod.fst).Nodup
  parent : ∀ x ∈ entries, x.1 ≠ [] → (x.1.dropLast, Entry.dir) ∈ entries
  names : ∀ x ∈ entries, ∀ n ∈ x.1, IsName n

/-- What is at a location. -/
def FileSystem.node (fs : FileSystem) (loc : Loc) : Option Entry :=
  (fs.entries.find? fun x => x.1 = loc).map Prod.snd

/-- One piece of a path name: only a directory leads on. -/
def FileSystem.enter (fs : FileSystem) (loc : Loc) (piece : Name) : Option Loc :=
  if fs.node loc = some .dir ∧ (fs.node (step loc piece)).isSome then some (step loc piece) else none

/-- The location that the pieces of a path name lead to. -/
def FileSystem.lookup (fs : FileSystem) (p : List Char) : Option Loc :=
  if p = [] then none else (p.splitOn '/').foldlM fs.enter (start fs.cwd p)

/-- The location that a path name stands for. -/
def FileSystem.resolve (fs : FileSystem) (p : List Char) : Option Loc :=
  if pathMax ≤ p.length then none else fs.lookup p

/-- `struct dirent` -/
structure Dirent where
  dName : Name
  dType : DType

/-- The entries of a directory, as `readdir` returns them. -/
def FileSystem.readdir (fs : FileSystem) (loc : Loc) : List Dirent :=
  ⟨['.'], .dir⟩ :: ⟨['.', '.'], .dir⟩ :: fs.entries.filterMap fun x =>
    x.1.getLast?.bind fun n => if x.1.dropLast = loc then some ⟨n, x.2.dType⟩ else none

/-- `opendir`, and what `readdir` then returns. -/
def FileSystem.opendir (fs : FileSystem) (p : List Char) : Option (List Dirent) :=
  (fs.resolve p).bind fun loc => if fs.node loc = some .dir then some (fs.readdir loc) else none

/-- `open` for reading: what can be read. -/
def FileSystem.openFile (fs : FileSystem) (p : List Char) : Option (List UInt8) :=
  (fs.resolve p).bind fun loc => match fs.node loc with
    | some (.reg content) => content
    | _ => none

/-! ### The search -/

/-- `MAXSIZEP` -/
def maxsizep : ℕ := 10000

/-- The number of files scanned, and what the scan has come to; `scanned` are the paths that `extract_blocks`
was called with. -/
structure Search (σ : Type) where
  nfiles : UInt64
  scanned : List (List Char)
  state : σ

/-- No file scanned. -/
def Search.init {σ : Type} (state : σ) : Search σ := ⟨0, [], state⟩

section Defs

variable {σ : Type} (fs : FileSystem) (check : ℕ → ℤ → σ → List UInt8 → σ) (sizesProc : List ℤ)

/-- The body of the loop of `search_dir`; `search` is the recursive call. -/
def searchEntry (search : List Char → Search σ → Exec (Search σ)) (path : List Char) (s : Search σ) (dp : Dirent) :
    Exec (Search σ) :=
  if dp.dName = ['.'] ∨ dp.dName = ['.', '.'] then .ok s
  else if maxsizep ≤ (path ++ dp.dName).length then .error .undefined
  else match dp.dType with
    | .dir =>
      if maxsizep ≤ (path ++ dp.dName).length + 1 then .error .undefined
      else search (path ++ dp.dName ++ ['/']) s
    | .reg => do
      let state ← extractBlocks check sizesProc (fs.openFile (path ++ dp.dName)) s.state
      .ok { nfiles := s.nfiles + 1, scanned := s.scanned ++ [path ++ dp.dName], state }
    | .other => .ok s

/-- `search_dir`, with `fuel` for the depth of the recursion.  A directory that does not open is passed over. -/
def searchDir : ℕ → List Char → Search σ → Exec (Search σ)
  | 0, _, _ => .error .diverges
  | fuel + 1, path, s =>
    match fs.opendir path with
    | none => .ok s
    | some dirents => dirents.foldlM (searchEntry fs check sizesProc (searchDir fuel) path) s

end Defs

/-! ### Locations -/

namespace FileSystem

variable {fs : FileSystem} {loc l par : Loc} {e : Entry} {n x : Name} {p q : List Char}

theorem node_eq_some : fs.node loc = some e ↔ (loc, e) ∈ fs.entries := find?_eq_some_iff fs.nodup

theorem isName_of_node (h : fs.node (loc ++ [n]) = some e) : IsName n :=
  fs.names _ (node_eq_some.mp h) n (List.mem_append_right _ (List.mem_singleton_self n))

theorem node_dir_of_child (h : fs.node (loc ++ [n]) = some e) : fs.node loc = some .dir := by
  have hparent := fs.parent _ (node_eq_some.mp h) (by simp)
  rw [List.dropLast_concat] at hparent
  exact node_eq_some.mpr hparent

/-- Whatever has something under it is a directory. -/
theorem node_dir_of_prefix (h : fs.node l = some e) (hle : loc <+: l) (hne : loc ≠ l) : fs.node loc = some .dir := by
  obtain ⟨t, rfl⟩ := hle
  induction t using List.reverseRecOn generalizing e with
  | nil => exact absurd (List.append_nil loc).symm hne
  | append_singleton t n ih =>
    rw [← List.append_assoc] at h
    have hdir := node_dir_of_child h
    rcases eq_or_ne t [] with rfl | ht
    · rwa [List.append_nil] at hdir
    · exact ih hdir fun heq => ht (List.append_right_eq_self.mp heq.symm)

/-- What a directory lists. -/
theorem mem_readdir {d : Dirent} : d ∈ fs.readdir loc ↔ d = ⟨['.'], .dir⟩ ∨ d = ⟨['.', '.'], .dir⟩ ∨
    ∃ e, fs.node (loc ++ [d.dName]) = some e ∧ d.dType = e.dType := by
  rw [readdir, List.mem_cons, List.mem_cons, List.mem_filterMap]
  refine or_congr_right (or_congr_right ⟨?_, ?_⟩)
  · rintro ⟨⟨l, e⟩, hmem, hd⟩
    obtain ⟨n, hn, hd⟩ := Option.bind_eq_some_iff.mp hd
    simp only at hd
    split at hd
    next hloc =>
      cases hd
      refine ⟨e, node_eq_some.mpr ?_, rfl⟩
      rwa [← hloc, List.dropLast_append_getLast? n hn]
    next => cases hd
  · rintro ⟨e, he, htype⟩
    refine ⟨(loc ++ [d.dName], e), node_eq_some.mp he, ?_⟩
    simp [← htype]

/-- No two entries of a directory have the same name. -/
theorem readdir_pairwise (fs : FileSystem) (loc : Loc) :
    (fs.readdir loc).Pairwise fun d d' => d.dName ≠ d'.dName := by
  have hrest : ∀ d ∈ fs.entries.filterMap (fun x =>
      x.1.getLast?.bind fun n => if x.1.dropLast = loc then some (⟨n, x.2.dType⟩ : Dirent) else none),
      IsName d.dName := by
    intro d hd
    obtain ⟨x, hmem, hx⟩ := List.mem_filterMap.mp hd
    obtain ⟨n, hn, hx⟩ := Option.bind_eq_some_iff.mp hx
    split at hx
    · cases hx
      exact fs.names x hmem n (List.mem_of_getLast? hn)
    · cases hx
  refine List.pairwise_cons.mpr ⟨?_, List.pairwise_cons.mpr ⟨?_, ?_⟩⟩
  · intro d hd
    rcases List.mem_cons.mp hd with rfl | hd
    · decide
    · exact fun heq => (hrest d hd).2.1 heq.symm
  · exact fun d hd heq => (hrest d hd).2.2.1 heq.symm
  · rw [List.pairwise_filterMap]
    refine (List.pairwise_map.mp fs.nodup).imp fun {x y} hxy d hd d' hd' heq => hxy ?_
    obtain ⟨n, hn, hd⟩ := Option.bind_eq_some_iff.mp hd
    obtain ⟨n', hn', hd'⟩ := Option.bind_eq_some_iff.mp hd'
    split at hd
    next hloc =>
      split at hd'
      next hloc' =>
        cases hd
        cases hd'
        simp only at heq
        rw [← List.dropLast_append_getLast? n hn, ← List.dropLast_append_getLast? n' hn', hloc, hloc', heq]
      next => cases hd'
    next => cases hd

/-! ### Path names that are put together -/

theorem enter_eq_some : fs.enter loc n = some l ↔
    fs.node loc = some .dir ∧ (fs.node l).isSome = true ∧ l = step loc n := by
  unfold enter
  split
  next h =>
    rw [Option.some.injEq]
    constructor
    · rintro rfl
      exact ⟨h.1, h.2, rfl⟩
    · exact fun hl => hl.2.2.symm
  next h =>
    constructor
    · intro hl
      cases hl
    · rintro ⟨hdir, hnode, rfl⟩
      exact absurd ⟨hdir, hnode⟩ h

theorem enter_isName (hn : IsName n) : fs.enter loc n = some l ↔ (fs.node l).isSome = true ∧ l = loc ++ [n] := by
  rw [enter_eq_some, step_of_isName hn]
  constructor
  · exact And.right
  · rintro ⟨hnode, rfl⟩
    obtain ⟨e, he⟩ := Option.isSome_iff_exists.mp hnode
    exact ⟨node_dir_of_child he, hnode, rfl⟩

/-- A path name with anything behind it is read as `x` with that behind it, in the directory at `par`. -/
structure Leads (fs : FileSystem) (p : List Char) (par : Loc) (x : Name) : Prop where
  ne_nil : p ≠ []
  slash : '/' ∉ x
  dir : fs.node par = some .dir
  lookup : ∀ r, fs.lookup (p ++ r) = ((x ++ r).splitOn '/').foldlM fs.enter par

theorem resolve_eq_some : fs.resolve p = some loc ↔ p.length < pathMax ∧ fs.lookup p = some loc := by
  unfold resolve
  split
  next h => simp [h]
  next h => simp [not_le.mp h]

/-- Where a path name leads is decided by its last piece, whatever is put behind it. -/
theorem exists_leads (h : fs.lookup p = some loc) :
    ∃ par x, fs.Leads p par x ∧ fs.enter par x = some loc ∧ (p.splitOn '/').getLast? = some x := by
  unfold lookup at h
  split at h
  · cases h
  next hne =>
  have hstart : ∀ r, fs.lookup (p ++ r) = ((p ++ r).splitOn '/').foldlM fs.enter (start fs.cwd p) := by
    intro r
    rw [lookup, if_neg (by simp [hne]), start_append hne]
  rcases exists_last_piece p with hslash | ⟨q, x, rfl, hslash⟩
  · rw [splitOn_of_notMem hslash] at h ⊢
    have henter : fs.enter (start fs.cwd p) p = some loc := by simpa using h
    exact ⟨_, p, ⟨hne, hslash, (enter_eq_some.mp henter).1, hstart⟩, henter, rfl⟩
  · rw [splitOn_slash, splitOn_of_notMem hslash] at h ⊢
    rw [List.foldlM_append] at h
    obtain ⟨par, hpar, hlast⟩ := Option.bind_eq_some_iff.mp h
    have henter : fs.enter par x = some loc := by simpa using hlast
    refine ⟨par, x, ⟨hne, hslash, (enter_eq_some.mp henter).1, fun r => ?_⟩, henter, by simp⟩
    rw [hstart, List.append_assoc, List.cons_append, splitOn_slash, List.foldlM_append, hpar]
    rfl

namespace Leads

theorem lookup_name (h : fs.Leads p par x) (hn : '/' ∉ n) : fs.lookup (p ++ n) = fs.enter par (x ++ n) := by
  have hslash : '/' ∉ x ++ n := by simp [h.slash, hn]
  rw [h.lookup, splitOn_of_notMem hslash]
  simp

theorem lookup_self (h : fs.Leads p par x) : fs.lookup p = fs.enter par x := by
  have hname := h.lookup_name (n := []) (by simp)
  rwa [List.append_nil, List.append_nil] at hname

/-- The path name of a directory, with a slash behind it. -/
theorem child (h : fs.Leads p par x) (hn : '/' ∉ n) (henter : fs.enter par (x ++ n) = some l)
    (hdir : fs.node l = some .dir) : fs.Leads (p ++ n ++ ['/']) l [] := by
  refine ⟨by simp, by simp, hdir, fun r => ?_⟩
  have hslash : '/' ∉ x ++ n := by simp [h.slash, hn]
  calc fs.lookup (p ++ n ++ ['/'] ++ r) = fs.lookup (p ++ (n ++ '/' :: r)) := by simp
    _ = ((x ++ n ++ '/' :: r).splitOn '/').foldlM fs.enter par := by rw [h.lookup, List.append_assoc]
    _ = (r.splitOn '/').foldlM fs.enter l := by
      rw [splitOn_slash, splitOn_of_notMem hslash]
      simp [henter]

theorem opendir (h : fs.Leads p par []) :
    fs.opendir p = if p.length < pathMax then some (fs.readdir par) else none := by
  have hlookup : fs.lookup p = some par := by
    rw [h.lookup_self, enter_eq_some]
    exact ⟨h.dir, by simp [h.dir], (step_nil par).symm⟩
  rw [FileSystem.opendir]
  split
  next hlen => rw [resolve_eq_some.mpr ⟨hlen, hlookup⟩, Option.bind_some, if_pos h.dir]
  next hlen => rw [FileSystem.resolve, if_pos (not_lt.mp hlen), Option.bind_none]

/-- What is listed in the directory that a path name with a slash leads to. -/
theorem enter_child (hn : fs.node (par ++ [n]) = some e) : fs.enter par ([] ++ n) = some (par ++ [n]) :=
  (enter_isName (isName_of_node hn)).mpr ⟨by simp [hn], rfl⟩

end Leads

/-! ### Files under a directory -/

/-- A regular file. -/
def IsFile (fs : FileSystem) (l : Loc) : Prop := ∃ content, fs.node l = some (.reg content)

/-- There is something at every location on the way to a file. -/
theorem IsFile.node_of_prefix (h : fs.IsFile l) (hle : loc <+: l) : ∃ e, fs.node loc = some e := by
  obtain ⟨content, hl⟩ := h
  rcases eq_or_ne loc l with rfl | hne
  · exact ⟨_, hl⟩
  · exact ⟨_, node_dir_of_prefix hl hle hne⟩

/-- A file under a directory is under one of the entries that the directory lists. -/
theorem IsFile.under_iff (h : fs.IsFile l) (hdir : fs.node loc = some .dir) :
    loc <+: l ↔ ∃ d ∈ fs.readdir loc, loc ++ [d.dName] <+: l := by
  constructor
  · rintro ⟨t, rfl⟩
    cases t with
    | nil =>
      obtain ⟨content, hl⟩ := h
      rw [List.append_nil, hdir] at hl
      cases hl
    | cons n t =>
      have hle : loc ++ [n] <+: loc ++ n :: t := ⟨t, by simp⟩
      obtain ⟨e, he⟩ := h.node_of_prefix hle
      exact ⟨⟨n, e.dType⟩, mem_readdir.mpr (.inr (.inr ⟨e, he, rfl⟩)), hle⟩
  · rintro ⟨d, -, hle⟩
    exact (List.prefix_append _ _).trans hle

end FileSystem

/-! ### The way to a file -/

section ComesTo

variable {fs : FileSystem} {par loc l : Loc} {p q q' : List Char} {n : Name} {t : List Name}

/-- The path name with which the search comes to a directory under its own. -/
def dirTo (p : List Char) (t : List Name) : List Char := p ++ t.flatMap fun n => n ++ ['/']

@[simp] theorem dirTo_nil (p : List Char) : dirTo p [] = p := List.append_nil p

theorem dirTo_cons (p : List Char) (n : Name) (t : List Name) : dirTo p (n :: t) = dirTo (p ++ n ++ ['/']) t := by
  simp [dirTo]

theorem length_le_dirTo (p : List Char) (t : List Name) : p.length ≤ (dirTo p t).length := by
  rw [dirTo, List.length_append]
  exact Nat.le_add_right _ _

theorem FileSystem.Leads.dirTo (hp : fs.Leads p par []) (h : fs.node (par ++ t) = some .dir) :
    fs.Leads (dirTo p t) (par ++ t) [] := by
  induction t generalizing p par with
  | nil => simpa using hp
  | cons n t ih =>
    have hn : fs.node (par ++ [n]) = some .dir := by
      rcases eq_or_ne t [] with rfl | ht
      · exact h
      · exact FileSystem.node_dir_of_prefix h ⟨t, by simp⟩ (by simpa using ht.symm)
    have hchild := hp.child (FileSystem.isName_of_node hn).2.2.2 (FileSystem.Leads.enter_child hn) hn
    rw [dirTo_cons, show par ++ n :: t = par ++ [n] ++ t by simp]
    exact ih hchild (by simpa using h)

/-- The search of the directory at `par` with the path name `p` comes to `l`, under the path name `q`: all the
directories on the way open. -/
def ComesTo (p : List Char) (par l : Loc) (q : List Char) : Prop :=
  ∃ t n, l = par ++ t ++ [n] ∧ q = dirTo p t ++ n ∧ (dirTo p t).length < pathMax

theorem ComesTo.length_lt (h : ComesTo p par l q) : p.length < pathMax := by
  obtain ⟨t, n, -, -, hlen⟩ := h
  exact lt_of_le_of_lt (length_le_dirTo p t) hlen

theorem ComesTo.prefix (h : ComesTo p par l q) : par <+: l := by
  obtain ⟨t, n, rfl, -⟩ := h
  exact ⟨t ++ [n], by simp⟩

theorem ComesTo.ne (h : ComesTo p par l q) : l ≠ par := by
  obtain ⟨t, n, rfl, -⟩ := h
  simp

theorem ComesTo.unique (h : ComesTo p par l q) (h' : ComesTo p par l q') : q = q' := by
  obtain ⟨t, n, rfl, rfl, -⟩ := h
  obtain ⟨t', n', heq, rfl, -⟩ := h'
  rw [List.append_assoc, List.append_assoc, List.append_cancel_left_eq] at heq
  obtain ⟨rfl, hn⟩ := List.append_inj' heq rfl
  cases hn
  rfl

/-- The path name of a file leads to it, if the system takes it. -/
theorem ComesTo.lookup (h : ComesTo p par l q) (hp : fs.Leads p par []) (hl : fs.IsFile l) : fs.lookup q = some l := by
  obtain ⟨t, n, rfl, rfl, -⟩ := h
  obtain ⟨content, hl⟩ := hl
  rw [(hp.dirTo (FileSystem.node_dir_of_child hl)).lookup_name (FileSystem.isName_of_node hl).2.2.2]
  exact FileSystem.Leads.enter_child hl

theorem comesTo_name : ComesTo p par (par ++ [n]) q ↔ p.length < pathMax ∧ q = p ++ n := by
  constructor
  · rintro ⟨t, m, heq, rfl, hlen⟩
    rw [List.append_assoc, List.append_cancel_left_eq] at heq
    obtain ⟨rfl, hn⟩ := List.append_inj' (show [] ++ [n] = t ++ [m] from heq) rfl
    cases hn
    exact ⟨by simpa using hlen, by simp⟩
  · rintro ⟨hlen, rfl⟩
    exact ⟨[], n, by simp, by simp, by simpa using hlen⟩

/-- Through a directory that is listed. -/
theorem comesTo_child : ComesTo (p ++ n ++ ['/']) (par ++ [n]) l q ↔
    ComesTo p par l q ∧ par ++ [n] <+: l ∧ l ≠ par ++ [n] := by
  constructor
  · intro h
    refine ⟨?_, h.prefix, h.ne⟩
    obtain ⟨t, m, rfl, rfl, hlen⟩ := h
    exact ⟨n :: t, m, by simp, by rw [dirTo_cons], by rwa [dirTo_cons]⟩
  · rintro ⟨⟨t, m, rfl, rfl, hlen⟩, hle, hne⟩
    rw [List.append_assoc, List.prefix_append_right_inj] at hle
    cases t with
    | nil =>
      rw [List.nil_append] at hle
      obtain rfl : n = m := by simpa using hle
      exact absurd (by simp) hne
    | cons k t =>
      obtain rfl : n = k := by simpa using hle
      exact ⟨t, m, by simp, by rw [dirTo_cons], by rwa [← dirTo_cons]⟩

end ComesTo

/-! ### What a search scans -/

section Search

variable {σ : Type} {fs : FileSystem} {check : ℕ → ℤ → σ → List UInt8 → σ} {sizesProc : List ℤ}
  {search : List Char → Search σ → Exec (Search σ)} {P Q : Loc → List Char → Prop} {s t u s' : Search σ}
  {par loc : Loc} {p : List Char} {x : Name} {d : Dirent}

/-- From `s` to `s'` the files were scanned that stand in the relation `P` to a path name, each of them once and by such
a name. -/
def Scanned (fs : FileSystem) (P : Loc → List Char → Prop) (s s' : Search σ) : Prop :=
  ∃ new : List (List Char × Loc), s'.scanned = s.scanned ++ new.map Prod.fst ∧
    s'.nfiles = s.nfiles + .ofNat new.length ∧ (∀ x ∈ new, P x.2 x.1) ∧
    (new.map Prod.snd).Nodup ∧ ∀ l, l ∈ new.map Prod.snd ↔ fs.IsFile l ∧ ∃ q, P l q

theorem Scanned.nothing (h : ∀ l q, fs.IsFile l → ¬ P l q) : Scanned fs P s s := by
  refine ⟨[], by simp, by simp, by simp, by simp, fun l => ?_⟩
  simpa using fun hl q => h l q hl

theorem Scanned.one {content : Option (List UInt8)} {state : σ} (hloc : fs.node loc = some (.reg content)) :
    Scanned fs (fun l q => l = loc ∧ q = p) s { nfiles := s.nfiles + 1, scanned := s.scanned ++ [p], state } := by
  refine ⟨[(p, loc)], rfl, rfl, by simp, by simp, fun l => ?_⟩
  rw [List.map_singleton, List.mem_singleton]
  constructor
  · rintro rfl
    exact ⟨⟨content, hloc⟩, p, rfl, rfl⟩
  · rintro ⟨-, q, rfl, -⟩
    rfl

theorem Scanned.trans (h : Scanned fs P s t) (h' : Scanned fs Q t u)
    (hdisj : ∀ l q q', fs.IsFile l → P l q → ¬ Q l q') : Scanned fs (fun l q => P l q ∨ Q l q) s u := by
  obtain ⟨new, hscanned, hnfiles, hnew, hnodup, hmem⟩ := h
  obtain ⟨new', hscanned', hnfiles', hnew', hnodup', hmem'⟩ := h'
  refine ⟨new ++ new', ?_, ?_, ?_, ?_, fun l => ?_⟩
  · rw [hscanned', hscanned, List.map_append, List.append_assoc]
  · rw [hnfiles', hnfiles, List.length_append, UInt64.ofNat_add, UInt64.add_assoc]
  · intro x hx
    exact (List.mem_append.mp hx).imp (hnew x) (hnew' x)
  · rw [List.map_append, List.nodup_append']
    refine ⟨hnodup, hnodup', fun l hl hl' => ?_⟩
    obtain ⟨hfile, q, hP⟩ := (hmem l).mp hl
    obtain ⟨-, q', hQ⟩ := (hmem' l).mp hl'
    exact hdisj l q q' hfile hP hQ
  · rw [List.map_append, List.mem_append, hmem, hmem', ← and_or_left, exists_or]

theorem Scanned.congr (h : Scanned fs P s t) (hPQ : ∀ l q, fs.IsFile l → (P l q ↔ Q l q)) : Scanned fs Q s t := by
  obtain ⟨new, hscanned, hnfiles, hnew, hnodup, hmem⟩ := h
  refine ⟨new, hscanned, hnfiles, fun x hx => ?_, hnodup, fun l => ?_⟩
  · exact (hPQ _ _ ((hmem _).mp (List.mem_map_of_mem hx)).1).mp (hnew x hx)
  · rw [hmem]
    exact and_congr_right fun hl => exists_congr fun q => hPQ l q hl

/-- What a loop over the entries of a directory scans, if no file is scanned for two of them. -/
theorem Scanned.foldlM {f : Search σ → Dirent → Exec (Search σ)} {P : Dirent → Loc → List Char → Prop} {ds : List Dirent}
    (step : ∀ d ∈ ds, ∀ s s', f s d = .ok s' → Scanned fs (P d) s s')
    (hdisj : ds.Pairwise fun d d' => ∀ l q q', fs.IsFile l → P d l q → ¬ P d' l q') (h : ds.foldlM f s = .ok s') :
    Scanned fs (fun l q => ∃ d ∈ ds, P d l q) s s' := by
  induction ds generalizing s with
  | nil =>
    cases h
    exact .nothing fun l q _ => by simp
  | cons d ds ih =>
    obtain ⟨t, ht, hrest⟩ := foldlM_cons_eq_ok.mp h
    obtain ⟨hne, hdisj⟩ := List.pairwise_cons.mp hdisj
    have hone := step d List.mem_cons_self s t ht
    have hmore := ih (fun d hd => step d (List.mem_cons_of_mem _ hd)) hdisj hrest
    refine (hone.trans hmore ?_).congr fun l q _ => by simp
    rintro l q q' hl hP ⟨d', hd', hP'⟩
    exact hne d' hd' l q q' hl hP hP'

/-- No two entries of a directory have a location in common. -/
theorem readdir_disjoint {f : Name → Loc → List Char → Prop} (fs : FileSystem) (loc : Loc)
    (hf : ∀ n l q, f n l q → loc ++ [n] <+: l) :
    (fs.readdir loc).Pairwise fun d d' => ∀ l q q', fs.IsFile l → f d.dName l q → ¬ f d'.dName l q' := by
  refine (fs.readdir_pairwise loc).imp fun {d d'} hne l q q' _ h h' => hne ?_
  exact name_unique (hf _ _ _ h) (hf _ _ _ h')

/-- What one round of the loop scans: the files under its entry. -/
theorem searchEntry_scanned (hp : fs.Leads p par []) (hlen : p.length < pathMax)
    (hsearch : ∀ q l s s', fs.Leads q l [] → search q s = .ok s' → Scanned fs (ComesTo q l) s s')
    (hd : d ∈ fs.readdir par) (h : searchEntry fs check sizesProc search p s d = .ok s') :
    Scanned fs (fun l q => ComesTo p par l q ∧ par ++ [d.dName] <+: l) s s' := by
  -- nothing lies under an entry that is not there
  have hnone : ¬ IsName d.dName → ∀ l q, fs.IsFile l → ¬ (ComesTo p par l q ∧ par ++ [d.dName] <+: l) := by
    rintro hname l q hl ⟨-, hle⟩
    obtain ⟨e, he⟩ := hl.node_of_prefix hle
    exact hname (FileSystem.isName_of_node he)
  unfold searchEntry at h
  split at h
  next hdots =>
    cases h
    exact .nothing (hnone fun hname => hdots.elim hname.2.1 hname.2.2.1)
  next hdots =>
  split at h
  · cases h
  next hfit =>
  obtain ⟨e, he, htype⟩ : ∃ e, fs.node (par ++ [d.dName]) = some e ∧ d.dType = e.dType := by
    rcases FileSystem.mem_readdir.mp hd with rfl | rfl | h
    · exact absurd (.inl rfl) hdots
    · exact absurd (.inr rfl) hdots
    · exact h
  have hname := FileSystem.isName_of_node he
  have henter := FileSystem.Leads.enter_child he
  -- what is no directory has nothing under it
  have hleaf : e ≠ .dir → ∀ l, fs.IsFile l → par ++ [d.dName] <+: l → l = par ++ [d.dName] := by
    rintro hne l ⟨content, hl⟩ hle
    by_contra hother
    rw [FileSystem.node_dir_of_prefix hl hle (Ne.symm hother)] at he
    exact hne (Option.some.inj he).symm
  cases e with
  | dir =>
    rw [htype] at h
    simp only [Entry.dType] at h
    split at h
    · cases h
    · refine (hsearch _ _ _ _ (hp.child hname.2.2.2 henter he) h).congr fun l q hl => ?_
      rw [comesTo_child, and_congr_right_iff]
      refine fun _ => and_iff_left ?_
      rintro rfl
      obtain ⟨content, hl⟩ := hl
      rw [he] at hl
      cases hl
  | reg content =>
    rw [htype] at h
    simp only [Entry.dType, bind_eq_ok] at h
    obtain ⟨state, -, h⟩ := h
    cases h
    refine (Scanned.one he).congr fun l q hl => ?_
    constructor
    · rintro ⟨rfl, rfl⟩
      exact ⟨comesTo_name.mpr ⟨hlen, rfl⟩, List.prefix_rfl⟩
    · rintro ⟨hreach, hle⟩
      obtain rfl := hleaf (by simp) l hl hle
      exact ⟨rfl, (comesTo_name.mp hreach).2⟩
  | other =>
    rw [htype] at h
    cases h
    refine .nothing fun l q hl hreach => ?_
    obtain rfl := hleaf (by simp) l hl hreach.2
    obtain ⟨content, hl⟩ := hl
    rw [he] at hl
    cases hl

/-- **What a search scans**, if its path ends with a slash: every file that it comes to under the directory, once. -/
theorem searchDir_scanned {fuel : ℕ} (hp : fs.Leads p par []) (h : searchDir fs check sizesProc fuel p s = .ok s') :
    Scanned fs (ComesTo p par) s s' := by
  induction fuel generalizing p par s s' with
  | zero => cases h
  | succ fuel ih =>
    rw [searchDir, hp.opendir] at h
    split at h
    next hnone =>
      cases h
      split at hnone
      · cases hnone
      next hlen => exact .nothing fun l q _ hreach => hlen hreach.length_lt
    next ds hds =>
      split at hds
      next hlen =>
        cases hds
        have hdisj := readdir_disjoint (f := fun n l q => ComesTo p par l q ∧ par ++ [n] <+: l) fs par
          fun n l q h => h.2
        refine (Scanned.foldlM (P := fun d l q => ComesTo p par l q ∧ par ++ [d.dName] <+: l)
          (fun d hd s s' h => searchEntry_scanned hp hlen (fun q l s s' hq h => ih hq h) hd h) hdisj h).congr
            fun l q hl => ?_
        constructor
        · rintro ⟨d, -, hreach, -⟩
          exact hreach
        · intro hreach
          obtain ⟨d, hd, hle⟩ := (hl.under_iff hp.dir).mp hreach.prefix
          exact ⟨d, hd, hreach, hle⟩
      · cases hds

/-! ### When a search comes back -/

/-- The path of everything in the directories that open fits into `newpath`, with a slash behind the directories, and the
block sizes can be used for every file that opens. -/
structure Fits (fs : FileSystem) (sizesProc : List ℤ) (p : List Char) (par : Loc) : Prop where
  length : ∀ t n e, (dirTo p t).length < pathMax → fs.node (par ++ t ++ [n]) = some e →
    (dirTo p t ++ n).length + (if e = .dir then 1 else 0) < maxsizep
  sizes : ∀ l q content, ComesTo p par l q → q.length < pathMax → fs.node l = some (.reg (some content)) →
    content ≠ [] → ∀ size ∈ sizesProc, 1 ≤ size

/-- `Fits`, entry by entry. -/
theorem fits_iff : Fits fs sizesProc p par ↔ (p.length < pathMax → ∀ n e, fs.node (par ++ [n]) = some e →
    (p ++ n).length + (if e = .dir then 1 else 0) < maxsizep ∧
      (e = .dir → Fits fs sizesProc (p ++ n ++ ['/']) (par ++ [n])) ∧
      ∀ content, e = .reg (some content) → (p ++ n).length < pathMax → content ≠ [] → ∀ size ∈ sizesProc, 1 ≤ size) := by
  constructor
  · intro h hlen n e he
    refine ⟨?_, fun _ => ⟨fun t m e' hlen' he' => ?_, fun l q content hreach => ?_⟩, fun content hcontent hfile hne => ?_⟩
    · simpa using h.length [] n e (by simpa using hlen) (by simpa using he)
    · rw [← dirTo_cons] at hlen' ⊢
      exact h.length (n :: t) m e' hlen' (by simpa using he')
    · exact h.sizes l q content (comesTo_child.mp hreach).1
    · exact h.sizes (par ++ [n]) (p ++ n) content (comesTo_name.mpr ⟨hlen, rfl⟩) hfile (hcontent ▸ he) hne
  · intro h
    -- the first name on the way
    have hfirst : ∀ n t m e, fs.node (par ++ n :: t ++ [m]) = some e → fs.node (par ++ [n]) = some .dir := by
      intro n t m e he
      exact FileSystem.node_dir_of_prefix he ⟨t ++ [m], by simp⟩ (by simp)
    refine ⟨fun t n e hlen he => ?_, fun l q content hreach hfile hl hne => ?_⟩
    · have hp := lt_of_le_of_lt (length_le_dirTo p t) hlen
      cases t with
      | nil => simpa using (h hp n e (by simpa using he)).1
      | cons k t =>
        rw [dirTo_cons] at hlen ⊢
        exact ((h hp k _ (hfirst k t n e he)).2.1 rfl).length t n e hlen (by simpa using he)
    · have hp := hreach.length_lt
      obtain ⟨t, n, rfl, rfl, -⟩ := id hreach
      cases t with
      | nil =>
        rw [List.append_nil] at hl
        rw [dirTo_nil] at hfile
        exact (h hp n _ hl).2.2 content rfl hfile hne
      | cons k t =>
        have hdir := hfirst k t n _ hl
        refine ((h hp k _ hdir).2.1 rfl).sizes _ _ content (comesTo_child.mpr ⟨hreach, ⟨t ++ [n], by simp⟩, ?_⟩)
          hfile hl hne
        simp

theorem FileSystem.Leads.openFile_eq_some {n : Name} {content : Option (List UInt8)} {c : List UInt8}
    (hp : fs.Leads p par []) (hn : fs.node (par ++ [n]) = some (.reg content)) :
    fs.openFile (p ++ n) = some c ↔ (p ++ n).length < pathMax ∧ content = some c := by
  have hlookup := (hp.lookup_name (FileSystem.isName_of_node hn).2.2.2).trans (FileSystem.Leads.enter_child hn)
  rw [FileSystem.openFile]
  by_cases hlen : (p ++ n).length < pathMax
  · rw [FileSystem.resolve_eq_some.mpr ⟨hlen, hlookup⟩, Option.bind_some, hn]
    simp only [hlen, true_and]
  · rw [FileSystem.resolve, if_pos (not_lt.mp hlen), Option.bind_none]
    simp only [hlen, false_and, reduceCtorEq]

/-- One round of the loop comes back if its entry fits and the recursive call comes back. -/
theorem searchEntry_ok {n : Name} {e : Entry} (hn : fs.node (par ++ [n]) = some e)
    (hlen : (p ++ n).length + (if e = .dir then 1 else 0) < maxsizep)
    (hsizes : ∀ content, e = .reg content → ∀ c, fs.openFile (p ++ n) = some c → c ≠ [] → ∀ size ∈ sizesProc, 1 ≤ size)
    (hsearch : e = .dir → ∀ s, ∃ s', search (p ++ n ++ ['/']) s = .ok s') (s : Search σ) :
    ∃ s', searchEntry fs check sizesProc search p s ⟨n, e.dType⟩ = .ok s' := by
  have hname := FileSystem.isName_of_node hn
  unfold searchEntry
  dsimp only
  rw [if_neg (not_or.mpr ⟨hname.2.1, hname.2.2.1⟩), if_neg (by omega)]
  cases e with
  | dir =>
    rw [if_pos rfl] at hlen
    simp only [Entry.dType]
    rw [if_neg (by omega)]
    exact hsearch rfl s
  | reg content =>
    obtain ⟨state, hstate⟩ : ∃ state, extractBlocks check sizesProc (fs.openFile (p ++ n)) s.state = .ok state :=
      extractBlocks_ok (fun c hc hne => hsizes content rfl c hc hne) s.state
    simp only [Entry.dType, hstate, bind_ok]
    exact ⟨_, rfl⟩
  | other => exact ⟨s, rfl⟩

/-- A search comes back if there is room for every path, with fuel for the depth of the tree. -/
theorem searchDir_ok {fuel : ℕ} (hp : fs.Leads p par []) (hfits : Fits fs sizesProc p par)
    (hfuel : ∀ t e, fs.node (par ++ t) = some e → t.length < fuel) (s : Search σ) :
    ∃ s', searchDir fs check sizesProc fuel p s = .ok s' := by
  induction fuel generalizing p par s with
  | zero => exact absurd (hfuel [] .dir (by simpa using hp.dir)) (Nat.not_lt_zero _)
  | succ fuel ih =>
    rw [searchDir, hp.opendir]
    by_cases hlen : p.length < pathMax
    · rw [if_pos hlen]
      have hround : ∀ (s : Search σ) d, d ∈ fs.readdir par → True →
          ∃ s', searchEntry fs check sizesProc (searchDir fs check sizesProc fuel) p s d = .ok s' ∧ True := by
        intro s d hd _
        rcases FileSystem.mem_readdir.mp hd with rfl | rfl | ⟨e, hn, htype⟩
        · exact ⟨s, rfl, trivial⟩
        · exact ⟨s, rfl, trivial⟩
        · obtain ⟨n, t⟩ := d
          cases htype
          obtain ⟨hfit, hdir, hsizes⟩ := fits_iff.mp hfits hlen n e hn
          have hdeep : ∀ t e', fs.node (par ++ [n] ++ t) = some e' → t.length < fuel := by
            intro t e' he'
            have hlt := hfuel (n :: t) e' (by simpa using he')
            simpa using hlt
          obtain ⟨s', hs'⟩ : ∃ s', searchEntry fs check sizesProc (searchDir fs check sizesProc fuel) p s ⟨n, e.dType⟩ =
              .ok s' := by
            refine searchEntry_ok hn hfit (fun content he c hopen hne => ?_) (fun he s => ih
              (hp.child (FileSystem.isName_of_node hn).2.2.2 (FileSystem.Leads.enter_child hn) (he ▸ hn)) (hdir he)
              hdeep s) s
            obtain ⟨hfile, rfl⟩ := (hp.openFile_eq_some (he ▸ hn)).mp hopen
            exact hsizes c he hfile hne
          exact ⟨s', hs', trivial⟩
      obtain ⟨s', hs', -⟩ := foldlM_ok hround (s := s) trivial
      exact ⟨s', hs'⟩
    · rw [if_neg hlen]
      exact ⟨s, rfl⟩

/-- `search_dir` never calls `exit`. -/
theorem searchDir_ne_exit (fuel : ℕ) (p : List Char) (s : Search σ) :
    searchDir fs check sizesProc fuel p s ≠ .error .exit := by
  induction fuel generalizing p s with
  | zero => simp [searchDir]
  | succ fuel ih =>
    rw [searchDir]
    split
    · simp
    next ds _ =>
      intro h
      obtain ⟨t, d, -, hfail⟩ := exists_of_foldlM_error h
      unfold searchEntry at hfail
      split at hfail
      · cases hfail
      split at hfail
      · cases hfail
      split at hfail
      · split at hfail
        · cases hfail
        · exact ih _ _ hfail
      · cases hfile : extractBlocks check sizesProc (fs.openFile (p ++ d.dName)) t.state with
        | ok state =>
          rw [hfile] at hfail
          cases hfail
        | error e =>
          rw [hfile, bind_error, Except.error.injEq] at hfail
          exact extractBlocks_ne_exit _ _ (hfail ▸ hfile)
      · cases hfail

end Search

end Dedisbench
