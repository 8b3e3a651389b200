import Dedisbench.Scan.Search

/-!
# When every file is scanned once

A path that ends with a slash is what `search_dir` needs.  Without one the names of the entries run into the last piece
of the path: the files of the directory itself are looked for beside it, under names that they do not have, and for its
directories the search goes on in those that happen to lie beside it.

`search_once_iff` says exactly when every file of a tree is scanned once and read: for a path with the slash, when
every file opens and every path fits its array and is one that the system takes; for one without, when what lies beside
the directory makes up for it, and so for a directory with files never if the path ends with its name.
-/

namespace Dedisbench

open Paths ExceptRun

section Once

variable {σ : Type} {fs : FileSystem} {check : ℕ → ℤ → σ → List UInt8 → σ} {sizesProc : List ℤ}
  {P : Loc → List Char → Prop} {s s' : Search σ} {par loc : Loc} {p : List Char} {x : Name} {d : Dirent}

/-! ### A path without the slash -/

/-- Given without its slash, with `x` for the last piece of its path, the directory at `loc` is searched beside itself:
for its entry `n` the search goes on in the directory at `par` with the name `x ++ n`. -/
def ScansBeside (fs : FileSystem) (p : List Char) (par : Loc) (x : Name) (loc l : Loc) (q : List Char) : Prop :=
  ∃ n, fs.node (loc ++ [n]) = some .dir ∧ ComesTo (p ++ n ++ ['/']) (par ++ [x ++ n]) l q

/-- The names that run into a path lead beside the directory. -/
theorem FileSystem.Leads.not_prefix {n : Name} (hp : fs.Leads p par x) (hx : x ≠ []) (hloc : fs.enter par x = some loc)
    (hn : n ≠ []) : ¬ par ++ [x ++ n] <+: loc := by
  intro hle
  obtain ⟨-, -, rfl⟩ := FileSystem.enter_eq_some.mp hloc
  have hlen := hle.length_le
  rw [List.length_append, List.length_singleton] at hlen
  by_cases hname : IsName x
  · rw [step_of_isName hname] at hle
    have heq : par ++ [x ++ n] = par ++ [x] := hle.eq_of_length (by simp)
    have hxn : x ++ n = x := by simpa using heq
    exact hn (List.append_right_eq_self.mp hxn)
  · -- dots lead to the directory itself, or up
    have hdots : x = ['.'] ∨ x = ['.', '.'] := by
      by_contra hno
      exact hname ⟨hx, fun h => hno (.inl h), fun h => hno (.inr h), hp.slash⟩
    rcases hdots with rfl | rfl
    · simp [step] at hlen
    · simp [step] at hlen
      omega

theorem FileSystem.Leads.not_prefix_child {n m : Name} (hp : fs.Leads p par x) (hx : x ≠ [])
    (hloc : fs.enter par x = some loc) (hn : n ≠ []) {q : List Char} :
    ¬ ComesTo (p ++ n ++ ['/']) (par ++ [x ++ n]) (loc ++ [m]) q := by
  intro h
  rcases List.prefix_concat_iff.mp h.prefix with heq | hle
  · exact h.ne heq.symm
  · exact hp.not_prefix hx hloc hn hle

/-- A directory beside, with the slash that the search writes behind its path. -/
theorem FileSystem.Leads.beside {n : Name} (hp : fs.Leads p par x) (hx : x ≠ []) (hname : IsName n)
    (hdir : fs.node (par ++ [x ++ n]) = some .dir) : fs.Leads (p ++ n ++ ['/']) (par ++ [x ++ n]) [] := by
  have henter : fs.enter par (x ++ n) = some (par ++ [x ++ n]) :=
    (FileSystem.enter_isName (hname.append hx hp.slash)).mpr ⟨by simp [hdir], rfl⟩
  exact hp.child hname.2.2.2 henter hdir

theorem ScansBeside.lookup {l : Loc} {q : List Char} (h : ScansBeside fs p par x loc l q) (hp : fs.Leads p par x)
    (hx : x ≠ []) (hl : fs.IsFile l) : fs.lookup q = some l := by
  obtain ⟨n, hn, hreach⟩ := h
  have hdir : fs.node (par ++ [x ++ n]) = some .dir := by
    obtain ⟨content, hl⟩ := hl
    exact FileSystem.node_dir_of_prefix hl hreach.prefix hreach.ne.symm
  exact hreach.lookup (hp.beside hx (FileSystem.isName_of_node hn) hdir) hl

/-- The directory itself opens without its slash. -/
theorem FileSystem.Leads.opendir_noSlash (hp : fs.Leads p par x) (hloc : fs.enter par x = some loc)
    (hlen : p.length < pathMax) :
    fs.opendir p = if fs.node loc = some .dir then some (fs.readdir loc) else none := by
  rw [FileSystem.opendir, FileSystem.resolve_eq_some.mpr ⟨hlen, hp.lookup_self.trans hloc⟩, Option.bind_some]

/-- Where there is no directory beside, none opens. -/
theorem FileSystem.Leads.opendir_beside {n : Name} (hp : fs.Leads p par x) (hx : x ≠ []) (hname : IsName n)
    (hdir : fs.node (par ++ [x ++ n]) ≠ some .dir) : fs.opendir (p ++ n ++ ['/']) = none := by
  have hname' := hname.append hx hp.slash
  by_contra hopen
  obtain ⟨ds, hopen⟩ := Option.ne_none_iff_exists'.mp hopen
  obtain ⟨l, hl, -⟩ := Option.bind_eq_some_iff.mp hopen
  have hl := (FileSystem.resolve_eq_some.mp hl).2
  rw [List.append_assoc, hp.lookup, ← List.append_assoc, splitOn_slash, splitOn_of_notMem hname'.2.2.2,
    List.splitOn_nil, List.singleton_append, List.foldlM_cons] at hl
  obtain ⟨l', hl', hl⟩ := Option.bind_eq_some_iff.mp hl
  have henter := FileSystem.enter_eq_some.mp (show fs.enter l' [] = some l by simpa using hl)
  obtain rfl : l' = par ++ [x ++ n] := ((FileSystem.enter_isName hname').mp hl').2
  exact hdir henter.1

/-- What the recursive call scans: the files that it comes to in the directory beside, if there is one. -/
theorem searchDir_beside {fuel : ℕ} {n : Name} (hp : fs.Leads p par x) (hx : x ≠ []) (hname : IsName n)
    (h : searchDir fs check sizesProc fuel (p ++ n ++ ['/']) s = .ok s') :
    Scanned fs (ComesTo (p ++ n ++ ['/']) (par ++ [x ++ n])) s s' := by
  by_cases hdir : fs.node (par ++ [x ++ n]) = some .dir
  · exact searchDir_scanned (hp.beside hx hname hdir) h
  · cases fuel with
    | zero => cases h
    | succ fuel =>
      rw [searchDir, hp.opendir_beside hx hname hdir] at h
      cases h
      refine .nothing fun l q hl hreach => hdir ?_
      obtain ⟨content, hl⟩ := hl
      exact FileSystem.node_dir_of_prefix hl hreach.prefix hreach.ne.symm

/-- One round of the loop over a directory whose path has no slash. -/
theorem searchEntry_beside {fuel : ℕ} (hp : fs.Leads p par x) (hx : x ≠ []) (hd : d ∈ fs.readdir loc)
    (h : searchEntry fs check sizesProc (searchDir fs check sizesProc fuel) p s d = .ok s') :
    Scanned fs (fun l q => l = loc ++ [d.dName] ∧ q = p ++ d.dName ∨ fs.node (loc ++ [d.dName]) = some .dir ∧
      ComesTo (p ++ d.dName ++ ['/']) (par ++ [x ++ d.dName]) l q) s s' := by
  have hthere : ∀ l q, fs.IsFile l → (l = loc ++ [d.dName] ∧ q = p ++ d.dName ∨ fs.node (loc ++ [d.dName]) = some .dir ∧
      ComesTo (p ++ d.dName ++ ['/']) (par ++ [x ++ d.dName]) l q) → ∃ e, fs.node (loc ++ [d.dName]) = some e := by
    rintro l q ⟨content, hl⟩ (⟨rfl, -⟩ | ⟨hdir, -⟩)
    · exact ⟨_, hl⟩
    · exact ⟨_, hdir⟩
  unfold searchEntry at h
  split at h
  next hdots =>
    cases h
    refine .nothing fun l q hl hP => ?_
    obtain ⟨e, he⟩ := hthere l q hl hP
    have hname := FileSystem.isName_of_node he
    exact hdots.elim hname.2.1 hname.2.2.1
  next hdots =>
  split at h
  · cases h
  obtain ⟨e, he, htype⟩ : ∃ e, fs.node (loc ++ [d.dName]) = some e ∧ d.dType = e.dType := by
    rcases FileSystem.mem_readdir.mp hd with rfl | rfl | h
    · exact absurd (.inl rfl) hdots
    · exact absurd (.inr rfl) hdots
    · exact h
  have hname := FileSystem.isName_of_node he
  cases e with
  | dir =>
    rw [htype] at h
    simp only [Entry.dType] at h
    split at h
    · cases h
    refine (searchDir_beside hp hx hname h).congr fun l q hl => ?_
    constructor
    · exact fun hreach => .inr ⟨he, hreach⟩
    · rintro (⟨rfl, -⟩ | ⟨-, hreach⟩)
      · obtain ⟨content, hl⟩ := hl
        rw [he] at hl
        cases hl
      · exact hreach
  | reg content =>
    rw [htype] at h
    simp only [Entry.dType, bind_eq_ok] at h
    obtain ⟨state, -, h⟩ := h
    cases h
    refine (Scanned.one he).congr fun l q _ => ⟨.inl, ?_⟩
    rintro (h | ⟨hdir, -⟩)
    · exact h
    · rw [he] at hdir
      cases hdir
  | other =>
    rw [htype] at h
    cases h
    refine .nothing fun l q hl hP => ?_
    obtain ⟨content, hl⟩ := hl
    rcases hP with ⟨rfl, -⟩ | ⟨hdir, -⟩
    · rw [he] at hl
      cases hl
    · rw [he] at hdir
      cases hdir

/-- **What a search scans whose path has no slash**: for every file of the directory itself a path name that the name of
the file has run into, and what lies beside. -/
theorem searchDir_noSlash {fuel : ℕ} (hp : fs.Leads p par x) (hx : x ≠ []) (hloc : fs.enter par x = some loc)
    (hlen : p.length < pathMax) (h : searchDir fs check sizesProc fuel p s = .ok s') :
    Scanned fs (fun l q => (∃ n, l = loc ++ [n] ∧ q = p ++ n) ∨ ScansBeside fs p par x loc l q) s s' := by
  cases fuel with
  | zero => cases h
  | succ fuel =>
  rw [searchDir, hp.opendir_noSlash hloc hlen] at h
  by_cases hdir : fs.node loc = some .dir
  · rw [if_pos hdir] at h
    -- the locations tell the entries apart
    have hdisj : (fs.readdir loc).Pairwise fun d d' => ∀ l q q', fs.IsFile l →
        (l = loc ++ [d.dName] ∧ q = p ++ d.dName ∨ fs.node (loc ++ [d.dName]) = some .dir ∧
          ComesTo (p ++ d.dName ++ ['/']) (par ++ [x ++ d.dName]) l q) →
        ¬ (l = loc ++ [d'.dName] ∧ q' = p ++ d'.dName ∨ fs.node (loc ++ [d'.dName]) = some .dir ∧
          ComesTo (p ++ d'.dName ++ ['/']) (par ++ [x ++ d'.dName]) l q') := by
      refine (fs.readdir_pairwise loc).imp ?_
      rintro d d' hne l q q' - (⟨rfl, -⟩ | ⟨hd, hreach⟩) (⟨heq, -⟩ | ⟨hd', hreach'⟩)
      · exact hne (by simpa using heq)
      · exact hp.not_prefix_child hx hloc (FileSystem.isName_of_node hd').1 hreach'
      · rw [heq] at hreach
        exact hp.not_prefix_child hx hloc (FileSystem.isName_of_node hd).1 hreach
      · exact hne (List.append_cancel_left (name_unique hreach.prefix hreach'.prefix))
    refine (Scanned.foldlM (P := fun d l q => l = loc ++ [d.dName] ∧ q = p ++ d.dName ∨
      fs.node (loc ++ [d.dName]) = some .dir ∧ ComesTo (p ++ d.dName ++ ['/']) (par ++ [x ++ d.dName]) l q)
      (fun d hd s s' h => searchEntry_beside hp hx hd h) hdisj h).congr fun l q hl => ?_
    constructor
    · rintro ⟨d, -, ⟨rfl, rfl⟩ | ⟨hd, hreach⟩⟩
      · exact .inl ⟨_, rfl, rfl⟩
      · exact .inr ⟨_, hd, hreach⟩
    · rintro (⟨n, rfl, rfl⟩ | ⟨n, hn, hreach⟩)
      · obtain ⟨content, hl⟩ := hl
        exact ⟨⟨n, _⟩, FileSystem.mem_readdir.mpr (.inr (.inr ⟨_, hl, rfl⟩)), .inl ⟨rfl, rfl⟩⟩
      · exact ⟨⟨n, _⟩, FileSystem.mem_readdir.mpr (.inr (.inr ⟨_, hn, rfl⟩)), .inr ⟨hn, hreach⟩⟩
  · rw [if_neg hdir] at h
    cases h
    refine .nothing fun l q hl hP => hdir ?_
    rcases hP with ⟨n, rfl, -⟩ | ⟨n, hn, -⟩
    · obtain ⟨content, hl⟩ := hl
      exact FileSystem.node_dir_of_child hl
    · exact FileSystem.node_dir_of_child hn

/-- A search comes back without the slash, too, if there is room for the names of the entries and for every path
beside. -/
theorem searchDir_noSlash_ok {fuel : ℕ} (hp : fs.Leads p par x) (hx : x ≠ []) (hloc : fs.enter par x = some loc)
    (hlen : p.length < pathMax)
    (hroom : ∀ n e, fs.node (loc ++ [n]) = some e → (p ++ n).length + (if e = .dir then 1 else 0) < maxsizep)
    (hfile : ∀ n, ¬ fs.IsFile (loc ++ [n]))
    (hfits : ∀ n, fs.node (loc ++ [n]) = some .dir → fs.node (par ++ [x ++ n]) = some .dir →
      Fits fs sizesProc (p ++ n ++ ['/']) (par ++ [x ++ n]))
    (hfuel : ∀ l e, fs.node l = some e → l.length < fuel) (s : Search σ) :
    ∃ s', searchDir fs check sizesProc (fuel + 1) p s = .ok s' := by
  -- the recursive call, for a directory of the one at `loc`
  have hsearch : ∀ n, fs.node (loc ++ [n]) = some .dir → ∀ s : Search σ,
      ∃ s', searchDir fs check sizesProc fuel (p ++ n ++ ['/']) s = .ok s' := by
    intro n hn s
    have hname := FileSystem.isName_of_node hn
    by_cases hdir : fs.node (par ++ [x ++ n]) = some .dir
    · refine searchDir_ok (hp.beside hx hname hdir) (hfits n hn hdir) (fun t e ht => ?_) s
      have hlt := hfuel _ e ht
      rw [List.length_append] at hlt
      omega
    · obtain ⟨k, rfl⟩ := Nat.exists_eq_succ_of_ne_zero (Nat.ne_zero_of_lt (hfuel _ _ hn))
      rw [searchDir, hp.opendir_beside hx hname hdir]
      exact ⟨s, rfl⟩
  rw [searchDir, hp.opendir_noSlash hloc hlen]
  by_cases hdir : fs.node loc = some .dir
  · rw [if_pos hdir]
    have hround : ∀ (s : Search σ) d, d ∈ fs.readdir loc → True →
        ∃ s', searchEntry fs check sizesProc (searchDir fs check sizesProc fuel) p s d = .ok s' ∧ True := by
      intro s d hd _
      rcases FileSystem.mem_readdir.mp hd with rfl | rfl | ⟨e, hn, htype⟩
      · exact ⟨s, rfl, trivial⟩
      · exact ⟨s, rfl, trivial⟩
      · obtain ⟨n, t⟩ := d
        cases htype
        obtain ⟨s', hs'⟩ : ∃ s', searchEntry fs check sizesProc (searchDir fs check sizesProc fuel) p s ⟨n, e.dType⟩ =
            .ok s' := searchEntry_ok hn (hroom n e hn)
          (fun content he _ _ _ => absurd ⟨content, he ▸ hn⟩ (hfile n)) (fun he => hsearch n (he ▸ hn)) s
        exact ⟨s', hs', trivial⟩
    obtain ⟨s', hs', -⟩ := foldlM_ok hround (s := s) trivial
    exact ⟨s', hs'⟩
  · rw [if_neg hdir]
    exact ⟨s, rfl⟩

/-! ### When every file is scanned once -/

/-- The regular files under a directory. -/
def FileSystem.files (fs : FileSystem) (loc : Loc) : List Loc :=
  (fs.entries.filter fun x => x.2.dType = .reg ∧ loc <+: x.1).map Prod.fst

theorem FileSystem.mem_files {l : Loc} : l ∈ fs.files loc ↔ fs.IsFile l ∧ loc <+: l := by
  rw [FileSystem.files, List.mem_map]
  constructor
  · rintro ⟨⟨l', e⟩, hmem, rfl⟩
    obtain ⟨hmem, htest⟩ := List.mem_filter.mp hmem
    obtain ⟨htype, hle⟩ := of_decide_eq_true htest
    cases e with
    | reg content => exact ⟨⟨content, FileSystem.node_eq_some.mpr hmem⟩, hle⟩
    | dir => cases htype
    | other => cases htype
  · rintro ⟨⟨content, hl⟩, hle⟩
    exact ⟨(l, .reg content), List.mem_filter.mpr ⟨FileSystem.node_eq_some.mp hl, decide_eq_true ⟨rfl, hle⟩⟩, rfl⟩

theorem FileSystem.nodup_files (fs : FileSystem) (loc : Loc) : (fs.files loc).Nodup :=
  fs.nodup.sublist (List.filter_sublist.map _)

/-- Every file under the directory was scanned exactly once and no other, every file that was scanned was read, and
`nfiles` is the number of files whose blocks were counted. -/
structure Once (fs : FileSystem) (loc : Loc) (s' : Search σ) : Prop where
  locs : ∃ locs : List Loc, s'.scanned.map fs.resolve = locs.map some ∧ locs.Nodup ∧
    ∀ l, l ∈ locs ↔ fs.IsFile l ∧ loc <+: l
  read : ∀ q ∈ s'.scanned, (fs.openFile q).isSome
  nfiles : s'.nfiles.toNat = s'.scanned.countP fun q => (fs.openFile q).isSome

/-- The search of a tree scans every file once, or else the program ends with an error. -/
def ScansOnce (fs : FileSystem) (check : ℕ → ℤ → σ → List UInt8 → σ) (sizesProc : List ℤ) (path : List Char)
    (loc : Loc) (state : σ) : Prop :=
  ∃ n, ∀ fuel, n ≤ fuel → searchDir fs check sizesProc fuel path (.init state) = .error .exit ∨
    ∃ s', searchDir fs check sizesProc fuel path (.init state) = .ok s' ∧ Once fs loc s'

/-- **When a search has scanned every file once**: when the files it came to are those of the tree, the system took the
path name of each, each opens, and `nfiles` can count them. -/
theorem Scanned.once_iff {state : σ} (h : Scanned fs P (.init state) s')
    (hlookup : ∀ l q, fs.IsFile l → P l q → fs.lookup q = some l) (huniq : ∀ l q q', P l q → P l q' → q = q') :
    Once fs loc s' ↔ (∀ l, fs.IsFile l → (loc <+: l ↔ ∃ q, P l q)) ∧
      (∀ l q, fs.IsFile l → P l q → q.length < pathMax) ∧ (∀ l, loc <+: l → fs.node l ≠ some (.reg none)) ∧
      (fs.files loc).length < 2 ^ 64 := by
  obtain ⟨new, hscanned, hnfiles, hnew, hnodup, hmem⟩ := h
  have hscanned : s'.scanned = new.map Prod.fst := hscanned
  have hfile : ∀ y ∈ new, fs.IsFile y.2 := fun y hy => ((hmem _).mp (List.mem_map_of_mem hy)).1
  -- the files scanned, if they are those of the tree
  have hperm : (∀ l, fs.IsFile l → (loc <+: l ↔ ∃ q, P l q)) → new.length = (fs.files loc).length := by
    intro hsame
    have hperm : (new.map Prod.snd).Perm (fs.files loc) :=
      (List.perm_ext_iff_of_nodup hnodup (fs.nodup_files loc)).mpr fun l => by
        rw [hmem, FileSystem.mem_files]
        exact and_congr_right fun hl => (hsame l hl).symm
    rw [← hperm.length_eq, List.length_map]
  constructor
  · rintro ⟨⟨locs, hlocs, -, hlocs_mem⟩, hread, hcount⟩
    rw [hscanned, List.map_map] at hlocs
    have hresolve : ∀ y ∈ new, fs.resolve y.1 = some y.2 := by
      intro y hy
      have hsome : fs.resolve y.1 ∈ locs.map some := hlocs ▸ List.mem_map_of_mem (f := fs.resolve ∘ Prod.fst) hy
      obtain ⟨l, -, hl⟩ := List.mem_map.mp hsome
      obtain ⟨-, hl'⟩ := FileSystem.resolve_eq_some.mp hl.symm
      rw [← hl, ← hl', hlookup _ _ (hfile y hy) (hnew y hy)]
    have heq : new.map Prod.snd = locs := by
      refine List.map_injective_iff.mpr (Option.some_injective Loc) ?_
      rw [List.map_map, ← hlocs]
      exact (List.map_congr_left hresolve).symm
    have hsame : ∀ l, fs.IsFile l → (loc <+: l ↔ ∃ q, P l q) := by
      intro l hl
      have hiff := (hmem l).symm.trans (heq ▸ hlocs_mem l)
      simpa [hl] using hiff.symm
    refine ⟨hsame, fun l q hl hP => ?_, fun l hle hl => ?_, ?_⟩
    · obtain ⟨y, hy, rfl⟩ := List.mem_map.mp ((hmem l).mpr ⟨hl, q, hP⟩)
      obtain rfl := huniq _ _ _ hP (hnew y hy)
      exact (FileSystem.resolve_eq_some.mp (hresolve y hy)).1
    · -- a file that does not open was scanned all the same
      obtain ⟨y, hy, rfl⟩ := List.mem_map.mp (heq ▸ (hlocs_mem l).mpr ⟨⟨none, hl⟩, hle⟩)
      have hopen := hread y.1 (hscanned ▸ List.mem_map_of_mem hy)
      rw [FileSystem.openFile, hresolve y hy, Option.bind_some, hl] at hopen
      cases hopen
    · have hlen : s'.scanned.length = new.length := by rw [hscanned, List.length_map]
      rw [← hperm hsame, ← hlen, ← List.countP_eq_length.mpr hread, ← hcount]
      exact UInt64.toNat_lt _
  · rintro ⟨hsame, hpaths, hopens, hcount⟩
    have hresolve : ∀ y ∈ new, fs.resolve y.1 = some y.2 := fun y hy =>
      FileSystem.resolve_eq_some.mpr ⟨hpaths _ _ (hfile y hy) (hnew y hy), hlookup _ _ (hfile y hy) (hnew y hy)⟩
    have hread : ∀ q ∈ s'.scanned, (fs.openFile q).isSome := by
      intro q hq
      rw [hscanned] at hq
      obtain ⟨y, hy, rfl⟩ := List.mem_map.mp hq
      obtain ⟨content, hl⟩ := hfile y hy
      rw [FileSystem.openFile, hresolve y hy, Option.bind_some, hl]
      cases content with
      | none => exact absurd hl (hopens _ ((hsame _ ⟨none, hl⟩).mpr ⟨_, hnew y hy⟩))
      | some content => rfl
    refine ⟨⟨new.map Prod.snd, ?_, hnodup, fun l => ?_⟩, hread, ?_⟩
    · rw [hscanned, List.map_map, List.map_map]
      exact List.map_congr_left hresolve
    · rw [hmem]
      exact and_congr_right fun hl => (hsame l hl).symm
    · rw [List.countP_eq_length.mpr hread, hscanned, List.length_map, hnfiles]
      show (0 + UInt64.ofNat new.length).toNat = new.length
      rw [UInt64.zero_add, UInt64.toNat_ofNat_of_lt' (hperm hsame ▸ hcount)]

/-- The search can go on to its end, every file under the directory opens under the path name that the search has for it,
and `nfiles` can count them. -/
structure Readable (fs : FileSystem) (sizesProc : List ℤ) (path : List Char) (loc : Loc) : Prop where
  fits : Fits fs sizesProc path loc
  paths : ∀ t n, fs.IsFile (loc ++ t ++ [n]) → (dirTo path t ++ n).length < pathMax
  opens : ∀ l, loc <+: l → fs.node l ≠ some (.reg none)
  count : (fs.files loc).length < 2 ^ 64

/-- The same for a directory whose path has no slash: it has no files of its own, and those that the search comes to
beside it are the files under it. -/
structure ReadableBeside (fs : FileSystem) (sizesProc : List ℤ) (path : List Char) (par : Loc) (x : Name) (loc : Loc) :
    Prop where
  room : ∀ n e, fs.node (loc ++ [n]) = some e → (path ++ n).length + (if e = .dir then 1 else 0) < maxsizep
  noFile : ∀ n, ¬ fs.IsFile (loc ++ [n])
  fits : ∀ n, fs.node (loc ++ [n]) = some .dir → fs.node (par ++ [x ++ n]) = some .dir →
    Fits fs sizesProc (path ++ n ++ ['/']) (par ++ [x ++ n])
  same : ∀ l, fs.IsFile l → (loc <+: l ↔ ∃ q, ScansBeside fs path par x loc l q)
  paths : ∀ l q, fs.IsFile l → ScansBeside fs path par x loc l q → q.length < pathMax
  opens : ∀ l, loc <+: l → fs.node l ≠ some (.reg none)
  count : (fs.files loc).length < 2 ^ 64

/-- Fuel for every tree of the file system. -/
theorem FileSystem.length_lt_fuel {l : Loc} {e : Entry} (h : fs.node l = some e) :
    l.length < (fs.entries.map fun x => x.1.length).sum + 1 :=
  Nat.lt_succ_of_le (List.le_sum_of_mem (List.mem_map.mpr ⟨_, FileSystem.node_eq_some.mp h, rfl⟩))

/-- What `Scanned.once_iff` asks for, if the path has its slash. -/
theorem Scanned.once_slash_iff {path : List Char} {state : σ} (hp : fs.Leads path loc [])
    (hfits : Fits fs sizesProc path loc) (h : Scanned fs (ComesTo path loc) (.init state) s') :
    Once fs loc s' ↔ Readable fs sizesProc path loc := by
  rw [h.once_iff (fun l q hl hreach => hreach.lookup hp hl) fun l q q' => ComesTo.unique]
  constructor
  · rintro ⟨hsame, hpaths, hopens, hcount⟩
    refine ⟨hfits, fun t n hl => ?_, hopens, hcount⟩
    obtain ⟨q, hreach⟩ := (hsame _ hl).mp ⟨t ++ [n], by simp⟩
    obtain ⟨t', n', heq, rfl, hlen⟩ := id hreach
    rw [List.append_assoc, List.append_assoc, List.append_cancel_left_eq] at heq
    obtain ⟨rfl, hn⟩ := List.append_inj' heq rfl
    cases hn
    exact hpaths _ _ hl hreach
  · intro hread
    refine ⟨fun l hl => ⟨?_, ?_⟩, fun l q hl => ?_, hread.opens, hread.count⟩
    · rintro ⟨t, rfl⟩
      rcases List.eq_nil_or_concat t with rfl | ⟨t, n, rfl⟩
      · obtain ⟨content, hl⟩ := hl
        rw [List.append_nil, hp.dir] at hl
        cases hl
      · rw [List.concat_eq_append, ← List.append_assoc] at hl ⊢
        have hlen := hread.paths t n hl
        rw [List.length_append] at hlen
        exact ⟨dirTo path t ++ n, t, n, rfl, rfl, by omega⟩
    · rintro ⟨q, hreach⟩
      exact hreach.prefix
    · rintro ⟨t, n, rfl, rfl, -⟩
      exact hread.paths t n hl

theorem Readable.scansOnce {path : List Char} (hp : fs.Leads path loc []) (h : Readable fs sizesProc path loc)
    (state : σ) : ScansOnce fs check sizesProc path loc state := by
  refine ⟨(fs.entries.map fun x => x.1.length).sum + 1, fun fuel hn => .inr ?_⟩
  obtain ⟨s', hs'⟩ : ∃ s', searchDir fs check sizesProc fuel path (.init state) = .ok s' := by
    refine searchDir_ok hp h.fits (fun t e ht => ?_) _
    have hlt := FileSystem.length_lt_fuel ht
    rw [List.length_append] at hlt
    omega
  exact ⟨s', hs', ((searchDir_scanned hp hs').once_slash_iff hp h.fits).mpr h⟩

/-- A file of the directory itself is scanned under a name that leads beside it.  So another file of the directory has to
have the first one's path, and its name is shorter. -/
theorem Once.noFile {path : List Char} {state : σ} (hp : fs.Leads path par x) (hx : x ≠ [])
    (hloc : fs.enter par x = some loc)
    (h : Scanned fs (fun l q => (∃ n, l = loc ++ [n] ∧ q = path ++ n) ∨ ScansBeside fs path par x loc l q) (.init state)
      s')
    (honce : Once fs loc s') (m : Name) : ¬ fs.IsFile (loc ++ [m]) := by
  obtain ⟨new, hscanned, -, hnew, -, hmem⟩ := h
  have hscanned : s'.scanned = new.map Prod.fst := hscanned
  obtain ⟨locs, hlocs, -, hlocs_mem⟩ := honce.locs
  induction hk : m.length using Nat.strong_induction_on generalizing m with
  | _ k ih =>
    subst hk
    intro hm
    have hsome : some (loc ++ [m]) ∈ s'.scanned.map fs.resolve :=
      hlocs ▸ List.mem_map_of_mem ((hlocs_mem _).mpr ⟨hm, List.prefix_append _ _⟩)
    rw [hscanned, List.map_map] at hsome
    obtain ⟨y, hy, hresolve⟩ := List.mem_map.mp hsome
    have hlookup : fs.lookup y.1 = some (loc ++ [m]) := (FileSystem.resolve_eq_some.mp hresolve).2
    have hfile : fs.IsFile y.2 := ((hmem _).mp (List.mem_map_of_mem hy)).1
    rcases hnew y hy with ⟨n, hl, hq⟩ | hbeside
    · rw [hl] at hfile
      obtain ⟨content, hn⟩ := id hfile
      have hname := FileSystem.isName_of_node hn
      rw [hq, hp.lookup_name hname.2.2.2] at hlookup
      have heq := ((FileSystem.enter_isName (hname.append hx hp.slash)).mp hlookup).2
      have hmn : m = x ++ n := by simpa using congrArg List.getLast? heq
      refine ih n.length ?_ n rfl hfile
      rw [hmn, List.length_append]
      exact Nat.lt_add_of_pos_left (List.length_pos_iff.mpr hx)
    · have heq : loc ++ [m] = y.2 := Option.some.inj (hlookup.symm.trans (hbeside.lookup hp hx hfile))
      obtain ⟨n, hn, hreach⟩ := hbeside
      rw [← heq] at hreach
      exact hp.not_prefix_child hx hloc (FileSystem.isName_of_node hn).1 hreach

/-- What the search of a directory without files of its own scans beside it. -/
theorem Scanned.beside {path : List Char} (hfile : ∀ n, ¬ fs.IsFile (loc ++ [n]))
    (h : Scanned fs (fun l q => (∃ n, l = loc ++ [n] ∧ q = path ++ n) ∨ ScansBeside fs path par x loc l q) s s') :
    Scanned fs (ScansBeside fs path par x loc) s s' := by
  refine h.congr fun l q hl => ⟨fun hP => hP.resolve_left ?_, .inr⟩
  rintro ⟨n, rfl, -⟩
  exact hfile n hl

/-- What `Scanned.once_iff` asks for, if the path has no slash. -/
theorem Scanned.once_beside_iff {path : List Char} {state : σ} (hp : fs.Leads path par x) (hx : x ≠ [])
    (h : Scanned fs (ScansBeside fs path par x loc) (.init state) s') :
    Once fs loc s' ↔ (∀ l, fs.IsFile l → (loc <+: l ↔ ∃ q, ScansBeside fs path par x loc l q)) ∧
      (∀ l q, fs.IsFile l → ScansBeside fs path par x loc l q → q.length < pathMax) ∧
      (∀ l, loc <+: l → fs.node l ≠ some (.reg none)) ∧ (fs.files loc).length < 2 ^ 64 := by
  refine h.once_iff (fun l q hl hP => hP.lookup hp hx hl) ?_
  rintro l q q' ⟨n, -, hreach⟩ ⟨n', -, hreach'⟩
  obtain rfl : n = n' := List.append_cancel_left (name_unique hreach.prefix hreach'.prefix)
  exact hreach.unique hreach'

theorem ReadableBeside.scansOnce {path : List Char} (hp : fs.Leads path par x) (hx : x ≠ [])
    (hloc : fs.enter par x = some loc) (hlen : path.length < pathMax) (h : ReadableBeside fs sizesProc path par x loc)
    (state : σ) : ScansOnce fs check sizesProc path loc state := by
  refine ⟨(fs.entries.map fun x => x.1.length).sum + 2, fun fuel hn => .inr ?_⟩
  obtain ⟨k, rfl⟩ := Nat.exists_eq_add_of_le' (Nat.one_le_of_lt (Nat.lt_of_succ_le hn))
  obtain ⟨s', hs'⟩ : ∃ s', searchDir fs check sizesProc (k + 1) path (.init state) = .ok s' := by
    refine searchDir_noSlash_ok hp hx hloc hlen h.room h.noFile h.fits (fun l e hl => ?_) _
    have hlt := FileSystem.length_lt_fuel hl
    omega
  have hscanned := (searchDir_noSlash hp hx hloc hlen hs').beside h.noFile
  exact ⟨s', hs', (hscanned.once_beside_iff hp hx).mpr ⟨h.same, h.paths, h.opens, h.count⟩⟩

end Once

end Dedisbench
