import Mathlib.Data.List.DropRight
import Dedisbench.Lib.Paths
import Dedisbench.Machine

/-!
# The removal of the databases

`remove_dir` removes what is in a directory and then the directory.  It tells directories by `stat`, which follows
links, so it goes on with what a link leads to, and gives up on a link that leads nowhere.  `removes_tree_iff` says
exactly when it stays inside the directory it was given and removes the links there: when each of them leads to
something that is no directory, by a way that does not go through what is removed before.
-/

namespace Dedisbench

open Paths ExceptRun

/-! ### File systems with links -/

/-- What is at a location. -/
inductive Inode where
  | reg
  | dir
  | link (target : List Char)
  deriving DecidableEq

/-- A tree of files, the current directory, and the number of links that a path name may lead through. -/
structure FileTree where
  entries : List (Loc × Inode)
  cwd : Loc
  symloop : ℕ
  nodup : (entries.map Prod.fst).Nodup
  parent : ∀ x ∈ entries, x.1 ≠ [] → (x.1.dropLast, Inode.dir) ∈ entries
  names : ∀ x ∈ entries, ∀ n ∈ x.1, IsName n

namespace FileTree

def node (fs : FileTree) (loc : Loc) : Option Inode := (fs.entries.find? fun x => x.1 = loc).map Prod.snd

/-- One piece of a path name: only a directory leads on, and a link leads where its target does.  The number is that of
the links that may still come. -/
def enter (fs : FileTree) : ℕ → Loc × ℕ → Name → Option (Loc × ℕ)
  | depth, s, piece =>
    if fs.node s.1 = some .dir then
      match fs.node (step s.1 piece) with
      | none => none
      | some (.link target) =>
        match depth with
        | 0 => none
        | depth + 1 =>
          if s.2 = 0 ∨ target = [] then none
          else (target.splitOn '/').foldlM (fs.enter depth) (start s.1 target, s.2 - 1)
      | some _ => some (step s.1 piece, s.2)
    else none

/-- The pieces of a path name, one after the other. -/
def walk (fs : FileTree) (p : List Char) (pieces : List Name) : Option (Loc × ℕ) :=
  if p = [] then none else pieces.foldlM (fs.enter fs.symloop) (start fs.cwd p, fs.symloop)

/-- What a path name leads to. -/
def resolve (fs : FileTree) (p : List Char) : Option (Loc × ℕ) :=
  if pathMax ≤ p.length then none else fs.walk p (p.splitOn '/')

/-- The entry that a path name stands for, a link or not. -/
def lresolve (fs : FileTree) (p : List Char) : Option Loc :=
  if pathMax ≤ p.length then none
  else do
    let s ← fs.walk p (p.splitOn '/').dropLast
    let loc := step s.1 ((p.splitOn '/').getLastD [])
    if fs.node s.1 = some .dir ∧ (fs.node loc).isSome then some loc else none

def stat (fs : FileTree) (p : List Char) : Option Inode := (fs.resolve p).bind fun s => fs.node s.1

def lstat (fs : FileTree) (p : List Char) : Option Inode := (fs.lresolve p).bind fs.node

/-- The names in a directory. -/
def readdir (fs : FileTree) (loc : Loc) : List Name :=
  ['.'] :: ['.', '.'] :: fs.entries.filterMap fun x =>
    x.1.getLast?.bind fun n => if x.1.dropLast = loc then some n else none

/-- `opendir`, and what `readdir` then returns, in the order of the directory. -/
def opendir (fs : FileTree) (order : Loc → List Name → List Name) (p : List Char) : Option (List Name) :=
  (fs.resolve p).bind fun s => if fs.node s.1 = some .dir then some (order s.1 (fs.readdir s.1)) else none

/-- Nothing is in it. -/
def Bare (fs : FileTree) (loc : Loc) : Prop := ∀ x ∈ fs.entries, x.1 ≠ [] → x.1.dropLast ≠ loc

instance (fs : FileTree) (loc : Loc) : Decidable (fs.Bare loc) := List.decidableBAll _ _

/-- Without the entry at a location. -/
def remove (fs : FileTree) (loc : Loc) (hbare : fs.Bare loc) : FileTree where
  entries := fs.entries.filter fun x => x.1 ≠ loc
  cwd := fs.cwd
  symloop := fs.symloop
  nodup := fs.nodup.sublist (List.filter_sublist.map _)
  parent x hx hne := by
    have hmem := (List.mem_filter.mp hx).1
    exact List.mem_filter.mpr ⟨fs.parent x hmem hne, decide_eq_true (hbare x hmem hne)⟩
  names x hx := fs.names x (List.mem_filter.mp hx).1

/-- `unlink`; what is not a directory has nothing in it. -/
def unlink (fs : FileTree) (p : List Char) : Option FileTree :=
  (fs.lresolve p).bind fun loc =>
    if h : fs.node loc ≠ some .dir ∧ fs.Bare loc then some (fs.remove loc h.2) else none

/-- `rmdir`: the last name has to be that of an empty directory, slashes behind it do not count. -/
def rmdir (fs : FileTree) (p : List Char) : Option FileTree :=
  if pathMax ≤ p.length then none
  else
    let q := p.rdropWhile (· = '/')
    (fs.lresolve q).bind fun loc =>
      if h : IsName ((q.splitOn '/').getLastD []) ∧ fs.node loc = some .dir ∧ fs.Bare loc then
        some (fs.remove loc h.2.2)
      else none

end FileTree

/-! ### The removal -/

/-- The file system, and the path names of the directories that have been opened. -/
structure Removal where
  fs : FileTree
  opened : List (List Char)

/-- An entry of a directory, of which `buf` is the path name; `remove` is the recursive call. -/
def removeEntry (remove : List Char → Removal → Exec (ℤ × Removal)) (buf : List Char) (s : Removal) :
    Exec (ℤ × Removal) :=
  match s.fs.stat buf with
  | none => .ok (-1, s)
  | some .dir => remove buf s
  | some _ =>
    match s.fs.unlink buf with
    | none => .ok (-1, s)
    | some fs => .ok (0, { s with fs })

/-- The loop over the names of a directory, up to the first that is not removed. -/
def removeEntries (remove : List Char → Removal → Exec (ℤ × Removal)) (path : List Char) :
    List Name → Removal → Exec (ℤ × Removal)
  | [], s => .ok (0, s)
  | dName :: names, s =>
    if dName = ['.'] ∨ dName = ['.', '.'] then removeEntries remove path names s
    else do
      let (r, s) ← removeEntry remove (path ++ '/' :: dName) s
      if r = 0 then removeEntries remove path names s else .ok (r, s)

/-- `remove_dir` up to the call of `rmdir`. -/
def removeContents (order : Loc → List Name → List Name) (remove : List Char → Removal → Exec (ℤ × Removal))
    (path : List Char) (s : Removal) : Exec (ℤ × Removal) :=
  match s.fs.opendir order path with
  | none => .ok (-1, s)
  | some names => removeEntries remove path names { s with opened := s.opened ++ [path] }

/-- `remove_dir`, with `fuel` for the depth of the recursion. -/
def FileTree.removeDir (order : Loc → List Name → List Name) : ℕ → List Char → Removal → Exec (ℤ × Removal)
  | 0, _, _ => .error .diverges
  | fuel + 1, path, s => do
    let (r, s) ← removeContents order (removeDir order fuel) path s
    if r = 0 then
      match s.fs.rmdir path with
      | none => .ok (-1, s)
      | some fs => .ok (0, { s with fs })
    else .ok (r, s)

/-! ### Path names that lead on -/

namespace FileTree

variable {fs fs' fs'' : FileTree} {loc : Loc} {e : Inode} {p : List Char} {n : Name} {s t : Loc × ℕ}

theorem node_eq_some : fs.node loc = some e ↔ (loc, e) ∈ fs.entries := find?_eq_some_iff fs.nodup

/-- A piece leads to what is there, or where a link leads. -/
theorem enter_eq_some {depth : ℕ} {piece : Name} : fs.enter depth s piece = some t ↔
    fs.node s.1 = some .dir ∧ (((fs.node (step s.1 piece) = some .dir ∨ fs.node (step s.1 piece) = some .reg) ∧
        t = (step s.1 piece, s.2)) ∨
      ∃ target d, fs.node (step s.1 piece) = some (.link target) ∧ depth = d + 1 ∧ ¬ (s.2 = 0 ∨ target = []) ∧
        (target.splitOn '/').foldlM (fs.enter d) (start s.1 target, s.2 - 1) = some t) := by
  rw [enter.eq_def]
  dsimp only
  by_cases hdir : fs.node s.1 = some .dir
  · rw [if_pos hdir]
    rcases hnode : fs.node (step s.1 piece) with _ | e
    · simp
    · cases e with
      | reg => simp [hdir, eq_comm]
      | dir => simp [hdir, eq_comm]
      | link target =>
        cases depth with
        | zero => simp
        | succ d =>
          by_cases hstop : s.2 = 0 ∨ target = []
          · dsimp only
            rw [if_pos hstop]
            refine iff_of_false (fun h => nomatch h) ?_
            rintro ⟨-, ⟨hthere | hthere, -⟩ | ⟨target', d', hlink, -, hgo, -⟩⟩
            · cases hthere
            · cases hthere
            · cases hlink
              exact hgo hstop
          · obtain ⟨hleft, htarget⟩ := not_or.mp hstop
            simp [hdir, hleft, htarget]
  · rw [if_neg hdir]
    simp [hdir]

/-- A file system with fewer entries. -/
structure Within (fs' fs : FileTree) : Prop where
  entries : fs'.entries ⊆ fs.entries
  cwd : fs'.cwd = fs.cwd
  symloop : fs'.symloop = fs.symloop

theorem Within.refl (fs : FileTree) : Within fs fs := ⟨List.Subset.refl _, rfl, rfl⟩

theorem Within.trans (h : Within fs'' fs') (h' : Within fs' fs) : Within fs'' fs :=
  ⟨List.Subset.trans h.entries h'.entries, h.cwd.trans h'.cwd, h.symloop.trans h'.symloop⟩

theorem remove_within (hbare : fs.Bare loc) : Within (fs.remove loc hbare) fs :=
  ⟨List.filter_subset_self _, rfl, rfl⟩

theorem Within.node (h : Within fs' fs) (he : fs'.node loc = some e) : fs.node loc = some e :=
  node_eq_some.mpr (h.entries (node_eq_some.mp he))

theorem foldlM_mono {α σ : Type} {f g : σ → α → Option σ} (h : ∀ s a t, f s a = some t → g s a = some t) {l : List α}
    {s t : σ} (ht : l.foldlM f s = some t) : l.foldlM g s = some t := by
  induction l generalizing s with
  | nil => exact ht
  | cons a l ih =>
    rw [List.foldlM_cons] at ht ⊢
    obtain ⟨u, hu, ht⟩ := Option.bind_eq_some_iff.mp ht
    exact Option.bind_eq_some_iff.mpr ⟨u, h s a u hu, ih ht⟩

/-- What leads somewhere where there is less leads there where there is more. -/
theorem Within.enter (h : Within fs' fs) {depth : ℕ} {piece : Name} (ht : fs'.enter depth s piece = some t) :
    fs.enter depth s piece = some t := by
  induction depth generalizing s t piece with
  | zero =>
    obtain ⟨hdir, hthere | ⟨_, _, -, hzero, -⟩⟩ := enter_eq_some.mp ht
    · exact enter_eq_some.mpr ⟨h.node hdir, .inl ⟨hthere.1.imp h.node h.node, hthere.2⟩⟩
    · cases hzero
  | succ depth ih =>
    obtain ⟨hdir, hthere | ⟨target, d, hlink, hdepth, hgo, hwalk⟩⟩ := enter_eq_some.mp ht
    · exact enter_eq_some.mpr ⟨h.node hdir, .inl ⟨hthere.1.imp h.node h.node, hthere.2⟩⟩
    · obtain rfl : depth = d := Nat.succ.inj hdepth
      exact enter_eq_some.mpr ⟨h.node hdir, .inr ⟨target, depth, h.node hlink, rfl, hgo,
        foldlM_mono (fun _ _ _ => ih) hwalk⟩⟩

theorem Within.walk (h : Within fs' fs) {pieces : List Name} (ht : fs'.walk p pieces = some t) :
    fs.walk p pieces = some t := by
  unfold FileTree.walk at ht ⊢
  by_cases hp : p = []
  · rw [if_pos hp] at ht
    cases ht
  · rw [if_neg hp, h.cwd, h.symloop] at ht
    rw [if_neg hp]
    exact foldlM_mono (fun _ _ _ => h.enter) ht

theorem resolve_eq_walk : fs.resolve p = some t ↔ p.length < pathMax ∧ fs.walk p (p.splitOn '/') = some t := by
  unfold resolve
  split
  next h => simp [h]
  next h => simp [not_le.mp h]

theorem Within.resolve (h : Within fs' fs) (ht : fs'.resolve p = some t) : fs.resolve p = some t := by
  rw [resolve_eq_walk] at ht ⊢
  exact ht.imp_right h.walk

theorem lresolve_eq_some : fs.lresolve p = some loc ↔ p.length < pathMax ∧ ∃ s,
    fs.walk p (p.splitOn '/').dropLast = some s ∧ fs.node s.1 = some .dir ∧
      loc = step s.1 ((p.splitOn '/').getLastD []) ∧ ∃ e, fs.node loc = some e := by
  unfold lresolve
  split
  next h => simp [h]
  next h =>
  simp only [Option.bind_eq_bind, Option.bind_eq_some_iff, not_le.mp h, true_and]
  refine exists_congr fun s => and_congr_right fun _ => ?_
  split
  next h =>
    obtain ⟨hdir, hsome⟩ := h
    rw [Option.some.injEq]
    constructor
    · rintro rfl
      exact ⟨hdir, rfl, Option.isSome_iff_exists.mp hsome⟩
    · rintro ⟨-, rfl, -⟩
      rfl
  next h =>
    simp only [reduceCtorEq, false_iff, not_and]
    rintro hdir rfl ⟨e, he⟩
    exact h ⟨hdir, Option.isSome_iff_exists.mpr ⟨e, he⟩⟩

theorem Within.lresolve (h : Within fs' fs) (hloc : fs'.lresolve p = some loc) : fs.lresolve p = some loc := by
  obtain ⟨hlen, s, hs, hdir, heq, e, he⟩ := lresolve_eq_some.mp hloc
  exact lresolve_eq_some.mpr ⟨hlen, s, h.walk hs, h.node hdir, heq, e, h.node he⟩

theorem walk_concat {pieces : List Name} : fs.walk p (pieces ++ [n]) = some t ↔
    ∃ s, fs.walk p pieces = some s ∧ fs.enter fs.symloop s n = some t := by
  unfold walk
  by_cases hp : p = []
  · simp [hp]
  · rw [if_neg hp, if_neg hp, List.foldlM_append]
    simp only [Option.bind_eq_bind, Option.bind_eq_some_iff, List.foldlM_cons, List.foldlM_nil, Option.pure_def,
      Option.some.injEq, exists_eq_right]

theorem splitOn_eq_dropLast_concat (p : List Char) :
    p.splitOn '/' = (p.splitOn '/').dropLast ++ [(p.splitOn '/').getLastD []] := by
  rw [List.getLastD_eq_getLast?, List.getLast?_eq_some_getLast (List.splitOn_ne_nil '/' p), Option.getD_some,
    List.dropLast_append_getLast]

/-- The last piece of a path name comes last. -/
theorem resolve_eq_some : fs.resolve p = some t ↔ p.length < pathMax ∧ ∃ s,
    fs.walk p (p.splitOn '/').dropLast = some s ∧ fs.enter fs.symloop s ((p.splitOn '/').getLastD []) = some t := by
  rw [resolve_eq_walk, splitOn_eq_dropLast_concat p, walk_concat]
  simp

/-- What a path name leads to is the entry it stands for, unless that is a link. -/
theorem exists_lresolve (h : fs.resolve p = some t) :
    ∃ loc, fs.lresolve p = some loc ∧ (loc = t.1 ∨ ∃ target, fs.node loc = some (.link target)) := by
  obtain ⟨hlen, s, hs, ht⟩ := resolve_eq_some.mp h
  obtain ⟨hdir, ⟨hthere, rfl⟩ | ⟨target, d, hlink, -⟩⟩ := enter_eq_some.mp ht
  · exact ⟨_, lresolve_eq_some.mpr ⟨hlen, s, hs, hdir, rfl, hthere.elim (fun h => ⟨_, h⟩) fun h => ⟨_, h⟩⟩, .inl rfl⟩
  · exact ⟨_, lresolve_eq_some.mpr ⟨hlen, s, hs, hdir, rfl, _, hlink⟩, .inr ⟨target, hlink⟩⟩

theorem resolve_of_lresolve (h : fs.lresolve p = some loc) (hthere : fs.node loc = some .dir ∨ fs.node loc = some .reg) :
    ∃ k, fs.resolve p = some (loc, k) := by
  obtain ⟨hlen, s, hs, hsdir, rfl, -⟩ := lresolve_eq_some.mp h
  exact ⟨s.2, resolve_eq_some.mpr ⟨hlen, s, hs, enter_eq_some.mpr ⟨hsdir, .inl ⟨hthere, rfl⟩⟩⟩⟩

theorem walk_append (hp : p ≠ []) (q : List Char) (pieces : List Name) : fs.walk (p ++ q) pieces = fs.walk p pieces := by
  rw [walk, walk, if_neg (by simp [hp]), if_neg hp, start_append hp]

theorem length_child (p : List Char) (n : Name) : (p ++ '/' :: n).length = p.length + n.length + 1 := by
  rw [List.length_append, List.length_cons, Nat.add_assoc]

/-- The path name of an entry leads through the directory. -/
theorem resolve_child (hp : p ≠ []) (hn : '/' ∉ n) : fs.resolve (p ++ '/' :: n) = some t ↔
    (p ++ '/' :: n).length < pathMax ∧ ∃ s, fs.resolve p = some s ∧ fs.enter fs.symloop s n = some t := by
  rw [resolve_eq_walk, walk_append hp, splitOn_slash, splitOn_of_notMem hn, walk_concat]
  refine and_congr_right fun hlen => exists_congr fun s => ?_
  rw [length_child] at hlen
  rw [resolve_eq_walk, and_iff_right (show p.length < pathMax by omega)]

theorem lresolve_child (hp : p ≠ []) (hn : '/' ∉ n) : fs.lresolve (p ++ '/' :: n) = some loc ↔
    (p ++ '/' :: n).length < pathMax ∧ ∃ s, fs.resolve p = some s ∧ fs.node s.1 = some .dir ∧ loc = step s.1 n ∧
      ∃ e, fs.node loc = some e := by
  rw [lresolve_eq_some, walk_append hp, splitOn_slash, splitOn_of_notMem hn, List.dropLast_concat]
  refine and_congr_right fun hlen => exists_congr fun s => ?_
  rw [length_child] at hlen
  rw [resolve_eq_walk, and_iff_right (show p.length < pathMax by omega)]
  simp

theorem stat_eq_some : fs.stat p = some e ↔ ∃ s, fs.resolve p = some s ∧ fs.node s.1 = some e :=
  Option.bind_eq_some_iff

theorem ne_nil_of_lresolve (h : fs.lresolve p = some loc) : p ≠ [] := by
  rintro rfl
  cases h

/-! ### What a call does to the file system -/

/-- Behind a slash, a path name goes on with the directory that is before it. -/
theorem resolve_of_slash (hp : p ≠ []) (h : fs.resolve (p ++ ['/']) = some t) : fs.resolve p = some t := by
  obtain ⟨-, s, hs, henter⟩ := (resolve_child hp List.not_mem_nil).mp h
  obtain ⟨hdir, ⟨-, rfl⟩ | ⟨target, -, hlink, -⟩⟩ := enter_eq_some.mp henter
  · rwa [step_nil]
  · rw [step_nil, hdir] at hlink
    cases hlink

/-- Slashes at the end do not make a path name lead elsewhere. -/
theorem resolve_stripped (h : fs.lresolve (p.rdropWhile (· = '/')) = some loc) (hdir : fs.node loc = some .dir)
    (ht : fs.resolve p = some t) : t.1 = loc := by
  induction p using List.reverseRecOn with
  | nil => cases ht
  | append_singleton p c ih =>
    by_cases hc : c = '/'
    · subst hc
      rw [List.rdropWhile_concat_pos _ _ _ (by simp)] at h
      rcases eq_or_ne p [] with rfl | hp
      · cases h
      · exact ih h (resolve_of_slash hp ht)
    · rw [List.rdropWhile_concat_neg _ _ _ (by simpa using hc)] at h
      obtain ⟨k, hk⟩ := resolve_of_lresolve h (.inl hdir)
      rw [hk, Option.some.injEq] at ht
      rw [← ht]

theorem mem_remove {hbare : fs.Bare loc} {x : Loc × Inode} :
    x ∈ (fs.remove loc hbare).entries ↔ x ∈ fs.entries ∧ x.1 ≠ loc := by
  rw [remove, List.mem_filter, decide_eq_true_eq]

theorem node_remove (hbare : fs.Bare loc) : (fs.remove loc hbare).node loc = none := by
  rw [Option.eq_none_iff_forall_ne_some]
  intro e he
  rw [node_eq_some, mem_remove] at he
  exact he.2 rfl

theorem unlink_eq_some (h : fs.unlink p = some fs') :
    ∃ loc hbare, fs.lresolve p = some loc ∧ fs' = fs.remove loc hbare := by
  obtain ⟨loc, hloc, h⟩ := Option.bind_eq_some_iff.mp h
  split at h
  next hfile => exact ⟨loc, hfile.2, hloc, (Option.some.inj h).symm⟩
  next => cases h

theorem rmdir_eq_some (h : fs.rmdir p = some fs') :
    ∃ loc hbare, fs.lresolve (p.rdropWhile (· = '/')) = some loc ∧ fs.node loc = some .dir ∧
      fs' = fs.remove loc hbare := by
  unfold rmdir at h
  split at h
  · cases h
  obtain ⟨loc, hloc, h⟩ := Option.bind_eq_some_iff.mp h
  split at h
  next hempty => exact ⟨loc, hempty.2.2, hloc, hempty.2.1, (Option.some.inj h).symm⟩
  next => cases h

/-- **What `rmdir` has removed is gone.** -/
theorem rmdir_gone (h : fs.rmdir p = some fs') : fs'.lresolve p = none := by
  obtain ⟨loc, hbare, hloc, hdir, rfl⟩ := rmdir_eq_some h
  have hwithin := remove_within hbare
  rw [Option.eq_none_iff_forall_ne_some]
  intro l hl
  rcases List.eq_nil_or_concat' p with rfl | ⟨p, c, rfl⟩
  · cases hl
  · by_cases hc : c = '/'
    · subst hc
      rw [List.rdropWhile_concat_pos _ _ _ (by simp)] at hloc
      rcases eq_or_ne p [] with rfl | hp
      · cases hloc
      · -- the directory behind which the slash stands is the one that is gone
        obtain ⟨-, s, hs, hsdir, -⟩ := (lresolve_child hp List.not_mem_nil).mp hl
        have hsloc := resolve_stripped hloc hdir (hwithin.resolve hs)
        rw [hsloc, node_remove] at hsdir
        cases hsdir
    · rw [List.rdropWhile_concat_neg _ _ _ (by simpa using hc)] at hloc
      have heq := hwithin.lresolve hl
      rw [hloc, Option.some.injEq] at heq
      subst heq
      obtain ⟨-, -, -, -, -, e, he⟩ := lresolve_eq_some.mp hl
      rw [node_remove] at he
      cases he

theorem opendir_eq_some {order : Loc → List Name → List Name} {names : List Name} : fs.opendir order p = some names ↔
    ∃ s, fs.resolve p = some s ∧ fs.node s.1 = some .dir ∧ names = order s.1 (fs.readdir s.1) := by
  unfold opendir
  rw [Option.bind_eq_some_iff]
  refine exists_congr fun s => and_congr_right fun _ => ?_
  split
  next h => simp [h, eq_comm]
  next h => simp [h]

end FileTree

/-! ### Below a directory -/

/-- The path name of what some names lead to from a directory. -/
def pathBelow (path : List Char) (ns : List Name) : List Char := ns.foldl (fun p n => p ++ '/' :: n) path

@[simp] theorem pathBelow_nil (path : List Char) : pathBelow path [] = path := rfl

theorem pathBelow_concat (path : List Char) (ns : List Name) (n : Name) :
    pathBelow path (ns ++ [n]) = pathBelow path ns ++ '/' :: n := by
  rw [pathBelow, List.foldl_append, List.foldl_cons, List.foldl_nil, pathBelow]

theorem length_pathBelow_le (path : List Char) (ms ns : List Name) :
    (pathBelow path ms).length ≤ (pathBelow path (ms ++ ns)).length := by
  induction ns using List.reverseRecOn with
  | nil => rw [List.append_nil]
  | append_singleton ns n ih =>
    rw [← List.append_assoc, pathBelow_concat, FileTree.length_child]
    omega

namespace FileTree

variable {fs fs' fs₀ : FileTree} {loc l D : Loc} {e : Inode} {path p : List Char} {n : Name} {ms ns : List Name}

theorem isName_of_node (h : fs.node (loc ++ [n]) = some e) : IsName n :=
  fs.names _ (node_eq_some.mp h) n (List.mem_append_right _ (List.mem_singleton_self n))

theorem node_dir_of_child (h : fs.node (loc ++ [n]) = some e) : fs.node loc = some .dir := by
  have hparent := fs.parent _ (node_eq_some.mp h) (by simp)
  rw [List.dropLast_concat] at hparent
  exact node_eq_some.mpr hparent

/-- Where there is something below, there is a directory. -/
theorem node_dir_of_append (h : fs.node (loc ++ ns) = some e) (hns : ns ≠ []) : fs.node loc = some .dir := by
  induction ns using List.reverseRecOn generalizing e with
  | nil => exact absurd rfl hns
  | append_singleton ns n ih =>
    rw [← List.append_assoc] at h
    have hdir := node_dir_of_child h
    rcases eq_or_ne ns [] with rfl | hne
    · rwa [List.append_nil] at hdir
    · exact ih hdir hne

/-- Where a directory is gone, everything below is. -/
theorem node_of_append (ns : List Name) (h : fs.node (loc ++ ns) = some e) : ∃ e', fs.node loc = some e' := by
  rcases eq_or_ne ns [] with rfl | hns
  · exact ⟨e, by rwa [List.append_nil] at h⟩
  · exact ⟨_, node_dir_of_append h hns⟩

/-- The path name of what is below a directory stands for it, if the system takes it. -/
theorem lresolve_below (hpath : fs.lresolve path = some D) (he : fs.node (D ++ ms) = some e)
    (hlen : (pathBelow path ms).length < pathMax) : fs.lresolve (pathBelow path ms) = some (D ++ ms) := by
  induction ms using List.reverseRecOn generalizing e with
  | nil => rwa [List.append_nil]
  | append_singleton ms n ih =>
    rw [← List.append_assoc] at he ⊢
    have hname := isName_of_node he
    have hdir := node_dir_of_child he
    have hms := ih hdir (lt_of_le_of_lt (length_pathBelow_le path ms [n]) hlen)
    rw [pathBelow_concat] at hlen ⊢
    obtain ⟨k, hk⟩ := resolve_of_lresolve hms (.inl hdir)
    exact (lresolve_child (ne_nil_of_lresolve hms) hname.2.2.2).mpr
      ⟨hlen, _, hk, hdir, (step_of_isName hname).symm, e, he⟩

/-- The entry that the path name of a name in a directory stands for is that of the directory. -/
theorem lresolve_name (hp : fs.lresolve p = some loc) (hdir : fs.node loc = some .dir) (hn : IsName n)
    (h : fs.lresolve (p ++ '/' :: n) = some l) : l = loc ++ [n] := by
  obtain ⟨-, s, hs, -, rfl, -⟩ := (lresolve_child (ne_nil_of_lresolve hp) hn.2.2.2).mp h
  obtain ⟨k, hk⟩ := resolve_of_lresolve hp (.inl hdir)
  rw [hk, Option.some.injEq] at hs
  rw [← hs, step_of_isName hn]

theorem stat_of_lresolve (h : fs.lresolve p = some loc) (hthere : fs.node loc = some .dir ∨ fs.node loc = some .reg) :
    fs.stat p = fs.node loc := by
  obtain ⟨k, hk⟩ := resolve_of_lresolve h hthere
  rw [stat, hk, Option.bind_some]

theorem Within.stat (h : Within fs' fs) (he : fs'.stat p = some e) : fs.stat p = some e := by
  obtain ⟨s, hs, hnode⟩ := stat_eq_some.mp he
  exact stat_eq_some.mpr ⟨s, h.resolve hs, h.node hnode⟩

/-- Nothing is in what is no directory. -/
theorem bare_of_node (h : fs.node loc = some e) (hne : e ≠ .dir) : fs.Bare loc := by
  rintro ⟨l, e'⟩ hmem hl rfl
  rw [node_eq_some.mpr (fs.parent _ hmem hl), Option.some.injEq] at h
  exact hne h.symm

theorem bare_iff : fs.Bare loc ↔ ∀ n, fs.node (loc ++ [n]) = none := by
  constructor
  · intro h n
    rw [Option.eq_none_iff_forall_ne_some]
    intro e he
    exact h _ (node_eq_some.mp he) (by simp) (by simp)
  · rintro h ⟨l, e⟩ hmem hne rfl
    obtain ⟨l, n, rfl⟩ := (List.eq_nil_or_concat' l).resolve_left hne
    have hnone := h n
    rw [List.dropLast_concat, node_eq_some.mpr hmem] at hnone
    cases hnone

/-- What is left if everything below a directory is removed but one entry and the directories above it. -/
def only (fs : FileTree) (D l : Loc) : FileTree where
  entries := fs.entries.filter fun x => ¬ D <+: x.1 ∨ x.1 <+: l
  cwd := fs.cwd
  symloop := fs.symloop
  nodup := fs.nodup.sublist (List.filter_sublist.map _)
  parent x hx hne := by
    obtain ⟨hmem, htest⟩ := List.mem_filter.mp hx
    refine List.mem_filter.mpr ⟨fs.parent x hmem hne, decide_eq_true ?_⟩
    have hle : x.1.dropLast <+: x.1 := List.dropLast_prefix _
    exact (of_decide_eq_true htest).imp (fun hnot h => hnot (h.trans hle)) hle.trans
  names x hx := fs.names x (List.mem_filter.mp hx).1

/-- It is left as long as the entry is. -/
theorem only_within (h : Within fs' fs) (hrest : ∀ x ∈ fs.entries, x ∉ fs'.entries → D <+: x.1)
    (hl : fs'.node l = some e) : Within (fs.only D l) fs' := by
  refine ⟨fun x hx => ?_, h.cwd.symm, h.symloop.symm⟩
  obtain ⟨hmem, htest⟩ := List.mem_filter.mp hx
  by_contra hnot
  obtain ⟨t, rfl⟩ := (of_decide_eq_true htest).resolve_left fun h => h (hrest x hmem hnot)
  obtain ⟨e', he'⟩ := node_of_append _ hl
  have heq := h.node he'
  rw [node_eq_some.mpr (show (x.1, x.2) ∈ fs.entries from hmem), Option.some.injEq] at heq
  subst heq
  exact hnot (node_eq_some.mp he')

/-- Nothing else is left once all other entries are gone. -/
theorem within_only (h : Within fs' fs) (hrest : ∀ x ∈ fs'.entries, D <+: x.1 → x.1 <+: l) :
    Within fs' (fs.only D l) := by
  refine ⟨fun x hx => List.mem_filter.mpr ⟨h.entries hx, decide_eq_true ?_⟩, h.cwd, h.symloop⟩
  by_cases hD : D <+: x.1
  · exact .inr (hrest x hx hD)
  · exact .inl hD

/-- What a directory lists beside itself and the one above. -/
theorem mem_readdir : n ∈ fs.readdir loc ∧ ¬ (n = ['.'] ∨ n = ['.', '.']) ↔ ∃ e, fs.node (loc ++ [n]) = some e := by
  rw [readdir, List.mem_cons, List.mem_cons, List.mem_filterMap]
  constructor
  · rintro ⟨h | h | ⟨⟨l, e⟩, hx, h⟩, hdots⟩
    · exact absurd (.inl h) hdots
    · exact absurd (.inr h) hdots
    · obtain ⟨m, hm, h⟩ := Option.bind_eq_some_iff.mp h
      split at h
      next hloc =>
        cases h
        refine ⟨e, node_eq_some.mpr ?_⟩
        rwa [← hloc, List.dropLast_append_getLast? n hm]
      next => cases h
  · rintro ⟨e, he⟩
    have hname := isName_of_node he
    refine ⟨.inr (.inr ⟨_, node_eq_some.mp he, ?_⟩), not_or.mpr ⟨hname.2.1, hname.2.2.1⟩⟩
    simp

/-- The names of a directory come once each. -/
theorem nodup_readdir (fs : FileTree) (loc : Loc) : (fs.readdir loc).Nodup := by
  have hrest : ∀ n ∈ fs.entries.filterMap (fun x =>
      x.1.getLast?.bind fun n => if x.1.dropLast = loc then some n else none), IsName n := by
    intro n hn
    obtain ⟨x, hx, h⟩ := List.mem_filterMap.mp hn
    obtain ⟨m, hm, h⟩ := Option.bind_eq_some_iff.mp h
    split at h
    · cases h
      exact fs.names x hx n (List.mem_of_getLast? hm)
    · cases h
  refine List.nodup_cons.mpr ⟨?_, List.nodup_cons.mpr ⟨fun h => (hrest _ h).2.2.1 rfl, ?_⟩⟩
  · rw [List.mem_cons, not_or]
    exact ⟨by decide, fun h => (hrest _ h).2.1 rfl⟩
  · rw [List.Nodup, List.pairwise_filterMap]
    refine (List.pairwise_map.mp fs.nodup).imp fun {x y} hxy n hn n' hn' heq => hxy ?_
    subst heq
    obtain ⟨m, hm, hn⟩ := Option.bind_eq_some_iff.mp hn
    obtain ⟨m', hm', hn'⟩ := Option.bind_eq_some_iff.mp hn'
    split at hn
    next hloc =>
      split at hn'
      next hloc' =>
        cases hn
        cases hn'
        rw [← List.dropLast_append_getLast? n hm, ← List.dropLast_append_getLast? n hm', hloc, hloc']
      next => cases hn'
    next => cases hn

end FileTree

/-! ### Staying inside -/

namespace FileTree

/-- What the removal of a directory from `fs` has come to: nothing outside is removed, no link has been followed but all
of them are removed, and where it succeeds nothing is left. -/
structure Confined (fs : FileTree) (path : List Char) (r : ℤ) (s : Removal) : Prop where
  inside : ∀ x ∈ fs.entries, x ∉ s.fs.entries → ∃ loc, fs.lresolve path = some loc ∧ loc <+: x.1
  notFollowed : ∀ p ∈ s.opened, ∀ target, fs.lstat p ≠ some (.link target)
  removed : ∀ D ns target, fs.lresolve path = some D → fs.node (D ++ ns) = some (.link target) →
    s.fs.node (D ++ ns) = none
  gone : r = 0 → s.fs.lresolve path = none

/-- `remove_dir` comes back, stays inside and removes the links, in whatever order the directories are read. -/
def RemovesTree (fs : FileTree) (path : List Char) : Prop :=
  ∀ order : Loc → List Name → List Name, (∀ loc names, (order loc names).Perm names) →
    ∃ fuel r s, removeDir order fuel path ⟨fs, []⟩ = .ok (r, s) ∧ Confined fs path r s

/-- The path itself is no link.  Every link below leads to something that is no directory, and still does if it is the
last of what is below; and where there is a link, the system takes the path names of everything that is below. -/
def LinksRemovable (fs : FileTree) (path : List Char) : Prop :=
  ∀ D ns target, fs.lresolve path = some D → fs.node (D ++ ns) = some (.link target) →
    ns ≠ [] ∧ (∃ e, e ≠ .dir ∧ (fs.only D (D ++ ns)).stat (pathBelow path ns) = some e) ∧
      ∀ ms e, fs.node (D ++ ms) = some e → (pathBelow path ms).length < pathMax

section Runs

variable {fs₀ : FileTree} {p q : List Char} {loc : Loc} {n : Name} {names : List Name} {r : ℤ} {R R' : Loc → Prop}
  {s s' s'' : Removal} {order : Loc → List Name → List Name} {F : List (List Char)}
  {remove : List Char → Removal → Exec (ℤ × Removal)}

theorem removeEntries_ok (hremove : ∀ n u, ∃ r u', remove (p ++ '/' :: n) u = .ok (r, u')) (names : List Name)
    (s : Removal) : ∃ r s', removeEntries remove p names s = .ok (r, s') := by
  have hentry : ∀ n u, ∃ r u', removeEntry remove (p ++ '/' :: n) u = .ok (r, u') := by
    intro n u
    unfold removeEntry
    split
    next => exact ⟨-1, u, rfl⟩
    next => exact hremove n u
    next => split <;> exact ⟨_, _, rfl⟩
  induction names generalizing s with
  | nil => exact ⟨0, s, rfl⟩
  | cons n names ih =>
    rw [removeEntries]
    split
    · exact ih s
    · obtain ⟨r, u, hr⟩ := hentry n s
      rw [hr, bind_ok]
      dsimp only
      split
      · exact ih u
      · exact ⟨r, u, rfl⟩

/-- **`remove_dir` always comes back**: each call has a longer path name, and no directory opens when it is too long. -/
theorem removeDir_ok {fuel : ℕ} (hfuel : pathMax ≤ fuel + p.length) (s : Removal) :
    ∃ r s', removeDir order (fuel + 1) p s = .ok (r, s') := by
  induction fuel generalizing p s with
  | zero =>
    have hopen : s.fs.opendir order p = none := by
      rw [opendir, FileTree.resolve, if_pos (by omega), Option.bind_none]
    refine ⟨-1, s, ?_⟩
    rw [removeDir, removeContents, hopen]
    rfl
  | succ fuel ih =>
    have hcontents : ∃ r s', removeContents order (removeDir order (fuel + 1)) p s = .ok (r, s') := by
      unfold removeContents
      split
      next => exact ⟨-1, s, rfl⟩
      next names _ =>
        refine removeEntries_ok (fun n u => ih ?_ u) names _
        rw [length_child]
        omega
    obtain ⟨r, u, hr⟩ := hcontents
    rw [removeDir, hr, bind_ok]
    dsimp only
    split
    · split <;> exact ⟨_, _, rfl⟩
    · exact ⟨r, u, rfl⟩

/-! ### What has been opened -/

theorem removeEntry_opened (hremove : ∀ q u r u', remove q u = .ok (r, u') → u.opened ⊆ u'.opened)
    (h : removeEntry remove p s = .ok (r, s')) : s.opened ⊆ s'.opened := by
  unfold removeEntry at h
  split at h
  next =>
    cases h
    exact List.Subset.refl _
  next => exact hremove _ _ _ _ h
  next =>
    split at h
    · cases h
      exact List.Subset.refl _
    · cases h
      exact List.Subset.refl _

theorem removeEntries_opened (hremove : ∀ q u r u', remove q u = .ok (r, u') → u.opened ⊆ u'.opened)
    (h : removeEntries remove p names s = .ok (r, s')) : s.opened ⊆ s'.opened := by
  induction names generalizing s with
  | nil =>
    cases h
    exact List.Subset.refl _
  | cons n names ih =>
    rw [removeEntries] at h
    split at h
    · exact ih h
    · obtain ⟨⟨r₁, s₁⟩, hentry, h⟩ := bind_eq_ok.mp h
      have hfirst := removeEntry_opened hremove hentry
      dsimp only at h
      split at h
      · exact List.Subset.trans hfirst (ih h)
      · cases h
        exact hfirst

/-- A call: the contents are removed, and then the directory if nothing has failed. -/
theorem removeDir_eq_ok {fuel : ℕ} (h : removeDir order fuel p s = .ok (r, s')) :
    ∃ k r₁ s₁, fuel = k + 1 ∧ removeContents order (removeDir order k) p s = .ok (r₁, s₁) ∧
      (r₁ ≠ 0 ∧ r = r₁ ∧ s' = s₁ ∨ r₁ = 0 ∧ r = -1 ∧ s' = s₁ ∧ s₁.fs.rmdir p = none ∨
        r₁ = 0 ∧ r = 0 ∧ ∃ fs, s₁.fs.rmdir p = some fs ∧ s' = { s₁ with fs }) := by
  cases fuel with
  | zero => cases h
  | succ k =>
    obtain ⟨⟨r₁, s₁⟩, hcontents, h⟩ := bind_eq_ok.mp h
    refine ⟨k, r₁, s₁, rfl, hcontents, ?_⟩
    dsimp only at h
    split at h
    next hzero =>
      split at h
      next hrmdir =>
        cases h
        exact .inr (.inl ⟨hzero, rfl, rfl, hrmdir⟩)
      next fs hrmdir =>
        cases h
        exact .inr (.inr ⟨hzero, rfl, fs, hrmdir, rfl⟩)
    next hzero =>
      cases h
      exact .inl ⟨hzero, rfl, rfl⟩

theorem removeDir_opened {fuel : ℕ} (h : removeDir order fuel p s = .ok (r, s')) : s.opened ⊆ s'.opened := by
  induction fuel generalizing p s r s' with
  | zero => cases h
  | succ fuel ih =>
    obtain ⟨k, r₁, s₁, hk, hcontents, hcase⟩ := removeDir_eq_ok h
    obtain rfl : fuel = k := Nat.succ.inj hk
    have hsub : s.opened ⊆ s₁.opened := by
      unfold removeContents at hcontents
      split at hcontents
      · cases hcontents
        exact List.Subset.refl _
      · exact List.Subset.trans (List.subset_append_left _ _)
          (removeEntries_opened (fun _ _ _ _ => ih) hcontents)
    rcases hcase with ⟨-, -, rfl⟩ | ⟨-, -, rfl, -⟩ | ⟨-, -, fs, -, rfl⟩ <;> exact hsub

/-- What is called on a directory opens it. -/
theorem removeDir_opens {fuel : ℕ} (hstat : s.fs.stat p = some .dir) (h : removeDir order fuel p s = .ok (r, s')) :
    p ∈ s'.opened := by
  obtain ⟨k, r₁, s₁, -, hcontents, hcase⟩ := removeDir_eq_ok h
  have hmem : p ∈ s₁.opened := by
    obtain ⟨t, ht, hdir⟩ := stat_eq_some.mp hstat
    rw [removeContents, opendir_eq_some.mpr ⟨t, ht, hdir, rfl⟩] at hcontents
    refine removeEntries_opened (fun _ _ _ _ => removeDir_opened) hcontents ?_
    exact List.mem_append_right _ (List.mem_singleton_self _)
  rcases hcase with ⟨-, -, rfl⟩ | ⟨-, -, rfl, -⟩ | ⟨-, -, fs, -, rfl⟩ <;> exact hmem

/-! ### What has been removed -/

/-- A piece of the removal: what is removed is where `R` allows it, and no link is followed. -/
structure Kept (fs₀ : FileTree) (R : Loc → Prop) (s s' : Removal) : Prop where
  within : s'.fs.Within s.fs
  inside : ∀ x ∈ s.fs.entries, x ∉ s'.fs.entries → R x.1
  opened : ∀ q ∈ s'.opened, q ∈ s.opened ∨ ∀ target, fs₀.lstat q ≠ some (.link target)

theorem Kept.refl (s : Removal) : Kept fs₀ R s s :=
  ⟨Within.refl _, fun _ hx hnot => absurd hx hnot, fun _ hq => .inl hq⟩

theorem Kept.trans (h : Kept fs₀ R s s') (h' : Kept fs₀ R s' s'') : Kept fs₀ R s s'' := by
  refine ⟨h'.within.trans h.within, fun x hx hnot => ?_, fun q hq => ?_⟩
  · by_cases hmem : x ∈ s'.fs.entries
    · exact h'.inside x hmem hnot
    · exact h.inside x hx hmem
  · exact (h'.opened q hq).elim (h.opened q) .inr

theorem Kept.mono (h : Kept fs₀ R s s') (hR : ∀ l, R l → R' l) : Kept fs₀ R' s s' :=
  ⟨h.within, fun x hx hnot => hR _ (h.inside x hx hnot), h.opened⟩

theorem kept_remove {l : Loc} {hbare : s.fs.Bare l} (hle : R l) : Kept fs₀ R s { s with fs := s.fs.remove l hbare } := by
  refine ⟨remove_within hbare, fun x hx hnot => ?_, fun _ hq => .inl hq⟩
  by_cases heq : x.1 = l
  · rwa [heq]
  · have hmem : x ∈ (s.fs.remove l hbare).entries := mem_remove.mpr ⟨hx, heq⟩
    exact absurd hmem hnot

/-- What may not be removed is still there. -/
theorem Kept.node {e : Inode} (h : Kept fs₀ R s s') (he : s.fs.node loc = some e) (hR : ¬ R loc) :
    s'.fs.node loc = some e := by
  by_contra hnot
  exact hR (h.inside _ (node_eq_some.mp he) fun hmem => hnot (node_eq_some.mpr hmem))

theorem Within.node_eq_none {fs fs' : FileTree} (h : Within fs' fs) (hnone : fs.node loc = none) :
    fs'.node loc = none := by
  rw [Option.eq_none_iff_forall_ne_some] at hnone ⊢
  exact fun e he => hnone e (h.node he)

/-- An entry of the directory at `loc`.  Nothing in `F` is a link that leads to a directory. -/
theorem removeEntry_kept (hp : fs₀.lresolve p = some loc) (hdir : fs₀.node loc = some .dir) (hn : IsName n)
    (hno : ∀ target, fs₀.node (loc ++ [n]) = some (.link target) → fs₀.stat (p ++ '/' :: n) = some .dir →
      p ++ '/' :: n ∉ F)
    (hopens : ∀ r s', s.fs.stat (p ++ '/' :: n) = some .dir → remove (p ++ '/' :: n) s = .ok (r, s') →
      p ++ '/' :: n ∈ s'.opened)
    (hremove : fs₀.lresolve (p ++ '/' :: n) = some (loc ++ [n]) → fs₀.node (loc ++ [n]) = some .dir →
      remove (p ++ '/' :: n) s = .ok (r, s') →
        Kept fs₀ (loc ++ [n] <+: ·) s s' ∧ (r = 0 → s'.fs.node (loc ++ [n]) = none))
    (hs : s.fs.Within fs₀) (h : removeEntry remove (p ++ '/' :: n) s = .ok (r, s')) (hF : s'.opened ⊆ F) :
    Kept fs₀ (loc ++ [n] <+: ·) s s' ∧ (r = 0 → s'.fs.node (loc ++ [n]) = none) := by
  have hfail : Kept fs₀ (loc ++ [n] <+: ·) s s ∧ ((-1 : ℤ) = 0 → s.fs.node (loc ++ [n]) = none) :=
    ⟨Kept.refl s, fun hzero => absurd hzero (by norm_num)⟩
  unfold removeEntry at h
  split at h
  next =>
    cases h
    exact hfail
  next hstat =>
    have hstat₀ := hs.stat hstat
    obtain ⟨t, ht, htdir⟩ := stat_eq_some.mp hstat₀
    obtain ⟨l, hl, hcase⟩ := exists_lresolve ht
    obtain rfl := lresolve_name hp hdir hn hl
    rcases hcase with heq | ⟨target, hlink⟩
    · exact hremove hl (heq ▸ htdir) h
    · exact absurd (hF (hopens _ _ hstat h)) (hno target hlink hstat₀)
  next =>
    split at h
    next =>
      cases h
      exact hfail
    next fs hunlink =>
      obtain ⟨l, hbare, hl, rfl⟩ := unlink_eq_some hunlink
      obtain rfl := lresolve_name hp hdir hn (hs.lresolve hl)
      cases h
      exact ⟨kept_remove List.prefix_rfl, fun _ => node_remove hbare⟩

/-- The names of the directory at `loc`, one after the other. -/
theorem removeEntries_kept (hopened : ∀ q u r u', remove q u = .ok (r, u') → u.opened ⊆ u'.opened)
    (hentry : ∀ n ∈ names, ¬ (n = ['.'] ∨ n = ['.', '.']) → ∀ u r u', u.fs.Within fs₀ →
      removeEntry remove (p ++ '/' :: n) u = .ok (r, u') → u'.opened ⊆ F →
        Kept fs₀ (loc ++ [n] <+: ·) u u' ∧ (r = 0 → u'.fs.node (loc ++ [n]) = none))
    (hs : s.fs.Within fs₀) (h : removeEntries remove p names s = .ok (r, s')) (hF : s'.opened ⊆ F) :
    Kept fs₀ (fun l => ∃ n ∈ names, loc ++ [n] <+: l) s s' ∧
      (r = 0 → ∀ n ∈ names, ¬ (n = ['.'] ∨ n = ['.', '.']) → s'.fs.node (loc ++ [n]) = none) := by
  induction names generalizing s with
  | nil =>
    cases h
    exact ⟨Kept.refl _, fun _ n hn => absurd hn List.not_mem_nil⟩
  | cons n names ih =>
    have hrest := fun m hm => hentry m (List.mem_cons_of_mem n hm)
    have hmore : ∀ l, (∃ m ∈ names, loc ++ [m] <+: l) → ∃ m ∈ n :: names, loc ++ [m] <+: l := by
      rintro l ⟨m, hm, hle⟩
      exact ⟨m, List.mem_cons_of_mem n hm, hle⟩
    rw [removeEntries] at h
    split at h
    next hdots =>
      obtain ⟨hkept, hgone⟩ := ih hrest hs h
      refine ⟨hkept.mono hmore, fun hzero m hm hnot => ?_⟩
      rcases List.mem_cons.mp hm with rfl | hm
      · exact absurd hdots hnot
      · exact hgone hzero m hm hnot
    next hdots =>
      obtain ⟨⟨r₁, s₁⟩, hfirst, h⟩ := bind_eq_ok.mp h
      dsimp only at h
      have hone : s₁.opened ⊆ F → Kept fs₀ (fun l => ∃ m ∈ n :: names, loc ++ [m] <+: l) s s₁ ∧
          (r₁ = 0 → s₁.fs.node (loc ++ [n]) = none) := by
        intro hF₁
        obtain ⟨hkept, hgone⟩ := hentry n List.mem_cons_self hdots s r₁ s₁ hs hfirst hF₁
        exact ⟨hkept.mono fun l hle => ⟨n, List.mem_cons_self, hle⟩, hgone⟩
      split at h
      next hzero =>
        obtain ⟨hkept, hgone⟩ := hone (List.Subset.trans (removeEntries_opened hopened h) hF)
        obtain ⟨hkept', hgone'⟩ := ih hrest (hkept.within.trans hs) h
        refine ⟨hkept.trans (hkept'.mono hmore), fun hr m hm hnot => ?_⟩
        rcases List.mem_cons.mp hm with rfl | hm
        · exact hkept'.within.node_eq_none (hgone hzero)
        · exact hgone' hr m hm hnot
      next hzero =>
        cases h
        exact ⟨(hone hF).1, fun hr => absurd hr hzero⟩

end Runs

section Inside

variable {fs₀ : FileTree} {path : List Char} {D : Loc} {r : ℤ} {s s' : Removal} {order : Loc → List Name → List Name}
  {F : List (List Char)} {ms : List Name}

/-- The contents of a directory below, if each call below stays inside. -/
theorem removeContents_kept {remove : List Char → Removal → Exec (ℤ × Removal)}
    (hpath : fs₀.lresolve path = some D)
    (hno : ∀ ms target, fs₀.node (D ++ ms) = some (.link target) → fs₀.stat (pathBelow path ms) = some .dir →
      pathBelow path ms ∉ F)
    (horder : ∀ loc names, (order loc names).Perm names) (hdir : fs₀.node (D ++ ms) = some .dir)
    (hopened : ∀ q u r u', remove q u = .ok (r, u') → u.opened ⊆ u'.opened)
    (hopens : ∀ q u r u', u.fs.stat q = some .dir → remove q u = .ok (r, u') → q ∈ u'.opened)
    (hremove : ∀ n u r u', u.fs.Within fs₀ → fs₀.node (D ++ (ms ++ [n])) = some .dir →
      remove (pathBelow path (ms ++ [n])) u = .ok (r, u') → u'.opened ⊆ F →
        Kept fs₀ (D ++ (ms ++ [n]) <+: ·) u u' ∧ (r = 0 → u'.fs.node (D ++ (ms ++ [n])) = none))
    (hs : s.fs.Within fs₀) (h : removeContents order remove (pathBelow path ms) s = .ok (r, s')) (hF : s'.opened ⊆ F) :
    Kept fs₀ (fun l => ∃ n, D ++ ms ++ [n] <+: l) s s' ∧ (r = 0 → ∀ n, s'.fs.node (D ++ ms ++ [n]) = none) := by
  unfold removeContents at h
  split at h
  next =>
    cases h
    exact ⟨Kept.refl s, fun hzero => absurd hzero (by norm_num)⟩
  next names hopen =>
    obtain ⟨t, ht, htdir, rfl⟩ := opendir_eq_some.mp hopen
    -- the directory is the one below, and no link
    have hlen := (resolve_eq_walk.mp ht).1
    have hloc := lresolve_below hpath hdir hlen
    obtain ⟨k, hk⟩ := resolve_of_lresolve hloc (.inl hdir)
    obtain rfl : t = (D ++ ms, k) := Option.some.inj ((hs.resolve ht).symm.trans hk)
    have hopenedHere : Kept fs₀ (fun l => ∃ n, D ++ ms ++ [n] <+: l) s
        { s with opened := s.opened ++ [pathBelow path ms] } := by
      refine ⟨Within.refl _, fun _ hx hnot => absurd hx hnot, fun q hq => ?_⟩
      rw [List.mem_append, List.mem_singleton] at hq
      rcases hq with hq | rfl
      · exact .inl hq
      · refine .inr fun target => ?_
        rw [lstat, hloc, Option.bind_some, hdir]
        simp
    have hentry : ∀ n ∈ order (D ++ ms) (s.fs.readdir (D ++ ms)), ¬ (n = ['.'] ∨ n = ['.', '.']) → ∀ u r u',
        u.fs.Within fs₀ → removeEntry remove (pathBelow path ms ++ '/' :: n) u = .ok (r, u') → u'.opened ⊆ F →
          Kept fs₀ (D ++ ms ++ [n] <+: ·) u u' ∧ (r = 0 → u'.fs.node (D ++ ms ++ [n]) = none) := by
      intro n hn hdots u r u' hu h hF
      obtain ⟨e, he⟩ := mem_readdir.mp ⟨(horder _ _).mem_iff.mp hn, hdots⟩
      have hno := hno (ms ++ [n])
      have hremove := hremove n u r u' hu
      rw [pathBelow_concat, ← List.append_assoc] at hno hremove
      exact removeEntry_kept hloc hdir (isName_of_node he) hno (hopens _ u)
        (fun _ hchild hr => hremove hchild hr hF) hu h hF
    obtain ⟨hkept, hgone⟩ := removeEntries_kept (s := ⟨s.fs, s.opened ++ [pathBelow path ms]⟩) hopened hentry hs h hF
    refine ⟨hopenedHere.trans (hkept.mono ?_), fun hzero n => ?_⟩
    · rintro l ⟨n, -, hle⟩
      exact ⟨n, hle⟩
    · cases hnode : s.fs.node (D ++ ms ++ [n]) with
      | none => exact hkept.within.node_eq_none hnode
      | some e =>
        obtain ⟨hmem, hdots⟩ := mem_readdir.mpr ⟨e, hnode⟩
        exact hgone hzero n ((horder _ _).mem_iff.mpr hmem) hdots

/-- **A call stays inside its directory**, as long as no link is followed, and leaves nothing if it returns zero. -/
theorem removeDir_kept (hpath : fs₀.lresolve path = some D)
    (hno : ∀ ms target, fs₀.node (D ++ ms) = some (.link target) → fs₀.stat (pathBelow path ms) = some .dir →
      pathBelow path ms ∉ F)
    (horder : ∀ loc names, (order loc names).Perm names) {fuel : ℕ} (hdir : fs₀.node (D ++ ms) = some .dir)
    (hs : s.fs.Within fs₀) (h : removeDir order fuel (pathBelow path ms) s = .ok (r, s')) (hF : s'.opened ⊆ F) :
    Kept fs₀ (D ++ ms <+: ·) s s' ∧ (r = 0 → s'.fs.node (D ++ ms) = none) := by
  induction fuel generalizing ms r s s' with
  | zero => cases h
  | succ fuel ih =>
    obtain ⟨k, r₁, s₁, hk, hcontents, hcase⟩ := removeDir_eq_ok h
    obtain rfl : fuel = k := Nat.succ.inj hk
    have hF₁ : s₁.opened ⊆ F := by
      rcases hcase with ⟨-, -, rfl⟩ | ⟨-, -, rfl, -⟩ | ⟨-, -, fs, -, rfl⟩ <;> exact hF
    obtain ⟨hbelow, -⟩ := removeContents_kept hpath hno horder hdir (fun _ _ _ _ => removeDir_opened)
      (fun _ _ _ _ => removeDir_opens) (fun n u r u' hu hchild hr hF => ih hchild hu hr hF) hs hcontents hF₁
    have hkept : Kept fs₀ (D ++ ms <+: ·) s s₁ := hbelow.mono fun l ⟨n, hle⟩ => (List.prefix_append _ _).trans hle
    rcases hcase with ⟨hne, rfl, rfl⟩ | ⟨-, rfl, rfl, -⟩ | ⟨-, rfl, fs, hrmdir, rfl⟩
    · exact ⟨hkept, fun hzero => absurd hzero hne⟩
    · exact ⟨hkept, fun hzero => absurd hzero (by norm_num)⟩
    · -- what `rmdir` removes is the directory itself
      obtain ⟨l, hbare, hl, hldir, rfl⟩ := rmdir_eq_some hrmdir
      have hwithin := hkept.within.trans hs
      have hlen : (pathBelow path ms).length < pathMax := by
        unfold rmdir at hrmdir
        split at hrmdir
        · cases hrmdir
        · omega
      obtain ⟨j, hj⟩ := resolve_of_lresolve (lresolve_below hpath hdir hlen) (.inl hdir)
      obtain rfl := resolve_stripped (hwithin.lresolve hl) (hwithin.node hldir) hj
      exact ⟨hkept.trans (kept_remove List.prefix_rfl), fun _ => node_remove hbare⟩

end Inside

/-! ### Removing the links -/

/-- A call that returns zero has removed its directory. -/
theorem removeDir_gone {order : Loc → List Name → List Name} {p : List Char} {s s' : Removal} {fuel : ℕ}
    (h : removeDir order fuel p s = .ok (0, s')) : s'.fs.lresolve p = none := by
  obtain ⟨k, r₁, s₁, -, -, ⟨hne, hzero, -⟩ | ⟨-, hneg, -⟩ | ⟨-, -, fs, hrmdir, rfl⟩⟩ := removeDir_eq_ok h
  · exact absurd hzero.symm hne
  · exact absurd hneg (by norm_num)
  · exact rmdir_gone hrmdir

theorem pathBelow_ne_nil {path : List Char} (hpath : path ≠ []) (ns : List Name) : pathBelow path ns ≠ [] := by
  induction ns using List.reverseRecOn with
  | nil => exact hpath
  | append_singleton ns n _ =>
    rw [pathBelow_concat]
    simp

/-- A directory on the way to what a path name leads to is led to. -/
theorem exists_resolve {fs : FileTree} {path : List Char} {t : Loc × ℕ} (hpath : path ≠ []) {ns : List Name}
    (hns : ∀ n ∈ ns, IsName n) (h : fs.resolve (pathBelow path ns) = some t) : ∃ t, fs.resolve path = some t := by
  induction ns using List.reverseRecOn generalizing t with
  | nil => exact ⟨t, h⟩
  | append_singleton ns n ih =>
    rw [pathBelow_concat] at h
    have hn := hns n (List.mem_append_right _ (List.mem_singleton_self n))
    obtain ⟨-, s, hs, -⟩ := (resolve_child (pathBelow_ne_nil hpath ns) hn.2.2.2).mp h
    exact ih (fun m hm => hns m (List.mem_append_left _ hm)) hs

theorem names_of_node {fs : FileTree} {D : Loc} {ns : List Name} {e : Inode} (h : fs.node (D ++ ns) = some e) :
    ∀ n ∈ ns, IsName n := fun n hn => fs.names _ (node_eq_some.mp h) n (List.mem_append_right _ hn)

/-- An empty directory is removed by a path name that ends with a name. -/
theorem rmdir_of_bare {fs : FileTree} {p : List Char} {n : Name} {loc : Loc} (hn : IsName n)
    (hlen : (p ++ '/' :: n).length < pathMax) (hloc : fs.lresolve (p ++ '/' :: n) = some loc)
    (hdir : fs.node loc = some .dir) (hbare : fs.Bare loc) : fs.rmdir (p ++ '/' :: n) = some (fs.remove loc hbare) := by
  have hlast : (p ++ '/' :: n).rdropWhile (· = '/') = p ++ '/' :: n := by
    obtain ⟨m, c, rfl⟩ := (List.eq_nil_or_concat' n).resolve_left hn.1
    have hc : c ≠ '/' := fun h => hn.2.2.2 (h ▸ List.mem_append_right m (List.mem_singleton_self c))
    rw [show p ++ '/' :: (m ++ [c]) = (p ++ '/' :: m) ++ [c] by simp]
    exact List.rdropWhile_concat_neg _ _ _ (by simpa using hc)
  have hpiece : ((p ++ '/' :: n).splitOn '/').getLastD [] = n := by
    rw [splitOn_slash, splitOn_of_notMem hn.2.2.2]
    simp
  rw [rmdir, if_neg (not_le.mpr hlen)]
  simp only [hlast, hloc, Option.bind_some]
  rw [dif_pos ⟨hpiece.symm ▸ hn, hdir, hbare⟩]

section Removed

variable {fs₀ : FileTree} {path : List Char} {D : Loc} {r : ℤ} {s s' : Removal} {order : Loc → List Name → List Name}
  {ms ns : List Name} {target : List Char}

theorem LinksRemovable.stat_ne (h : fs₀.LinksRemovable path) (hpath : fs₀.lresolve path = some D)
    (hlink : fs₀.node (D ++ ns) = some (.link target)) : fs₀.stat (pathBelow path ns) ≠ some .dir := by
  obtain ⟨-, ⟨e, hne, hstat⟩, -⟩ := h D ns target hpath hlink
  have hwithin := only_within (D := D) (Within.refl fs₀) (fun x hx hnot => absurd hx hnot) hlink
  rw [hwithin.stat hstat]
  exact fun heq => hne (Option.some.inj heq)

section Left

variable (hpath : fs₀.lresolve path = some D) (hsafe : fs₀.LinksRemovable path)
  (hs : Kept fs₀ (D <+: ·) ⟨fs₀, []⟩ s) (hlink : s.fs.node (D ++ ns) = some (.link target))
include hpath hsafe hs hlink

/-- A link that is left can be told from a directory. -/
theorem stat_link : ∃ e, e ≠ .dir ∧ s.fs.stat (pathBelow path ns) = some e := by
  obtain ⟨-, ⟨e, hne, hstat⟩, -⟩ := hsafe D ns target hpath (hs.within.node hlink)
  exact ⟨e, hne, (only_within hs.within hs.inside hlink).stat hstat⟩

/-- While a link is left, the path names of what is left stand for it. -/
theorem lresolve_left {e : Inode} (he : s.fs.node (D ++ ms) = some e) :
    s.fs.lresolve (pathBelow path ms) = some (D ++ ms) := by
  obtain ⟨e', -, hstat⟩ := stat_link hpath hsafe hs hlink
  obtain ⟨t, ht, -⟩ := stat_eq_some.mp hstat
  obtain ⟨u, hu⟩ := exists_resolve (ne_nil_of_lresolve hpath) (names_of_node hlink) ht
  obtain ⟨l, hl, -⟩ := exists_lresolve hu
  obtain rfl : l = D := Option.some.inj ((hs.within.lresolve hl).symm.trans hpath)
  exact lresolve_below hl he ((hsafe l ns target hpath (hs.within.node hlink)).2.2 ms e (hs.within.node he))

end Left

variable {remove : List Char → Removal → Exec (ℤ × Removal)} {loc l : Loc} {p : List Char} {names : List Name}

/-- The names of the directory at `loc` are all removed while the link at `l` is left. -/
theorem removeEntries_done (hD : D <+: loc)
    (hkept : ∀ n ∈ names, ¬ (n = ['.'] ∨ n = ['.', '.']) → ∀ u r u', u.fs.Within fs₀ →
      removeEntry remove (p ++ '/' :: n) u = .ok (r, u') →
        Kept fs₀ (loc ++ [n] <+: ·) u u' ∧ (r = 0 → u'.fs.node (loc ++ [n]) = none))
    (hentry : ∀ n u r u', Kept fs₀ (D <+: ·) ⟨fs₀, []⟩ u → (∃ e, u.fs.node (loc ++ [n]) = some e) →
      removeEntry remove (p ++ '/' :: n) u = .ok (r, u') → u'.fs.node l = some (.link target) →
        u.fs.node l = some (.link target) → r = 0)
    (hnodup : names.Nodup)
    (hthere : ∀ n ∈ names, ¬ (n = ['.'] ∨ n = ['.', '.']) → ∃ e, s.fs.node (loc ++ [n]) = some e)
    (hs : Kept fs₀ (D <+: ·) ⟨fs₀, []⟩ s) (h : removeEntries remove p names s = .ok (r, s'))
    (hlink : s'.fs.node l = some (.link target)) : r = 0 := by
  induction names generalizing s with
  | nil =>
    cases h
    rfl
  | cons n names ih =>
    obtain ⟨hnot, hnodup⟩ := List.nodup_cons.mp hnodup
    have hrest := fun m hm => hkept m (List.mem_cons_of_mem n hm)
    rw [removeEntries] at h
    split at h
    next => exact ih hrest hnodup (fun m hm => hthere m (List.mem_cons_of_mem n hm)) hs h
    next hdots =>
      obtain ⟨⟨r₁, s₁⟩, hfirst, h⟩ := bind_eq_ok.mp h
      dsimp only at h
      obtain ⟨hkeptn, -⟩ := hkept n List.mem_cons_self hdots s r₁ s₁ hs.within hfirst
      have hs₁ : Kept fs₀ (D <+: ·) ⟨fs₀, []⟩ s₁ :=
        hs.trans (hkeptn.mono fun l hle => hD.trans ((List.prefix_append _ _).trans hle))
      have hzero : s₁.fs.node l = some (.link target) → r₁ = 0 := fun hlink₁ =>
        hentry n s r₁ s₁ hs (hthere n List.mem_cons_self hdots) hfirst hlink₁ (hkeptn.within.node hlink₁)
      split at h
      next =>
        refine ih hrest hnodup (fun m hm hmdots => ?_) hs₁ h
        obtain ⟨e, he⟩ := hthere m (List.mem_cons_of_mem n hm) hmdots
        refine ⟨e, hkeptn.node he fun hle => ?_⟩
        have heq : n = m := by simpa using hle.eq_of_length (by simp)
        exact hnot (heq ▸ hm)
      next hne =>
        cases h
        exact absurd (hzero hlink) hne

variable (hpath : fs₀.lresolve path = some D) (hsafe : fs₀.LinksRemovable path)
  (horder : ∀ loc names, (order loc names).Perm names)
include hpath hsafe horder

variable (ms) in
/-- What a call has kept, if the links can be removed. -/
theorem LinksRemovable.kept {fuel : ℕ} (hdir : fs₀.node (D ++ ms) = some .dir) (hs : s.fs.Within fs₀)
    (h : removeDir order fuel (pathBelow path ms) s = .ok (r, s')) :
    Kept fs₀ (D ++ ms <+: ·) s s' ∧ (r = 0 → s'.fs.node (D ++ ms) = none) :=
  removeDir_kept hpath (fun _ _ hlink hstat => absurd hstat (hsafe.stat_ne hpath hlink)) horder hdir hs h
    (List.Subset.refl _)

variable (ms) in
theorem LinksRemovable.contents_kept {fuel : ℕ} (hdir : fs₀.node (D ++ ms) = some .dir) (hs : s.fs.Within fs₀)
    (h : removeContents order (removeDir order fuel) (pathBelow path ms) s = .ok (r, s')) :
    Kept fs₀ (fun l => ∃ n, D ++ ms ++ [n] <+: l) s s' ∧ (r = 0 → ∀ n, s'.fs.node (D ++ ms ++ [n]) = none) :=
  removeContents_kept hpath (fun _ _ hlink hstat => absurd hstat (hsafe.stat_ne hpath hlink)) horder hdir
    (fun _ _ _ _ => removeDir_opened) (fun _ _ _ _ => removeDir_opens)
    (fun _ _ _ _ hu hchild hr _ => hsafe.kept _ hpath horder hchild hu hr) hs h (List.Subset.refl _)

variable (ms) in
/-- The contents of a directory are removed while a link is left anywhere, if the calls below return zero then. -/
theorem removeContents_done {fuel : ℕ}
    (hremove : ∀ n u r u', Kept fs₀ (D <+: ·) ⟨fs₀, []⟩ u → u.fs.node (D ++ (ms ++ [n])) = some .dir →
      removeDir order fuel (pathBelow path (ms ++ [n])) u = .ok (r, u') → u'.fs.node (D ++ ns) = some (.link target) →
        r = 0)
    (hs : Kept fs₀ (D <+: ·) ⟨fs₀, []⟩ s) (hdir : s.fs.node (D ++ ms) = some .dir)
    (h : removeContents order (removeDir order fuel) (pathBelow path ms) s = .ok (r, s'))
    (hlink : s'.fs.node (D ++ ns) = some (.link target)) : r = 0 := by
  have hdir₀ := hs.within.node hdir
  have hlink₀ := (hsafe.contents_kept _ hpath horder hdir₀ hs.within h).1.within.node hlink
  obtain ⟨k, hk⟩ := resolve_of_lresolve (lresolve_left hpath hsafe hs hlink₀ hdir) (.inl hdir)
  rw [removeContents, opendir_eq_some.mpr ⟨_, hk, hdir, rfl⟩] at h
  dsimp only at h
  have hloc := lresolve_below hpath hdir₀ (resolve_eq_walk.mp hk).1
  -- one name
  have hkept : ∀ n ∈ order (D ++ ms) (s.fs.readdir (D ++ ms)), ¬ (n = ['.'] ∨ n = ['.', '.']) → ∀ u r u',
      u.fs.Within fs₀ → removeEntry (removeDir order fuel) (pathBelow path ms ++ '/' :: n) u = .ok (r, u') →
        Kept fs₀ (D ++ ms ++ [n] <+: ·) u u' ∧ (r = 0 → u'.fs.node (D ++ ms ++ [n]) = none) := by
    intro n hn hdots u r u' hu h
    obtain ⟨e, he⟩ := mem_readdir.mp ⟨(horder _ _).mem_iff.mp hn, hdots⟩
    refine removeEntry_kept hloc hdir₀ (isName_of_node he) (fun target hlink hstat => ?_)
      (fun r s' => removeDir_opens) (fun _ hchild hr => ?_) hu h (List.Subset.refl _)
    · rw [← pathBelow_concat] at hstat
      exact absurd hstat (hsafe.stat_ne hpath (by rwa [← List.append_assoc]))
    · rw [← pathBelow_concat] at hr
      have hkept := hsafe.kept (ms ++ [n]) hpath horder (by rwa [← List.append_assoc]) hu hr
      rwa [← List.append_assoc] at hkept
  have hentry : ∀ n u r u', Kept fs₀ (D <+: ·) ⟨fs₀, []⟩ u → (∃ e, u.fs.node (D ++ ms ++ [n]) = some e) →
      removeEntry (removeDir order fuel) (pathBelow path ms ++ '/' :: n) u = .ok (r, u') →
        u'.fs.node (D ++ ns) = some (.link target) → u.fs.node (D ++ ns) = some (.link target) → r = 0 := by
    rintro n u r u' hu ⟨e, he⟩ h hlink' hlink
    rw [List.append_assoc] at he
    have hl := lresolve_left hpath hsafe hu hlink he
    -- what is no directory is unlinked
    have hunlink : e ≠ .dir → ∃ fs, u.fs.unlink (pathBelow path (ms ++ [n])) = some fs := by
      intro hne
      have hbare := bare_of_node he hne
      refine ⟨u.fs.remove _ hbare, ?_⟩
      rw [unlink, hl, Option.bind_some, dif_pos ⟨fun hdir => hne (Option.some.inj (he.symm.trans hdir)), hbare⟩]
    rw [← pathBelow_concat] at h
    cases e with
    | dir =>
      rw [removeEntry, stat_of_lresolve hl (.inl he), he] at h
      exact hremove n u r u' hu he h hlink'
    | reg =>
      obtain ⟨fs, hfs⟩ := hunlink (by simp)
      rw [removeEntry, stat_of_lresolve hl (.inr he), he] at h
      dsimp only at h
      rw [hfs] at h
      cases h
      rfl
    | link target' =>
      obtain ⟨fs, hfs⟩ := hunlink (by simp)
      obtain ⟨e, hne, hstat⟩ := stat_link hpath hsafe hu he
      rw [removeEntry, hstat] at h
      cases e with
      | dir => exact absurd rfl hne
      | reg =>
        dsimp only at h
        rw [hfs] at h
        cases h
        rfl
      | link _ =>
        dsimp only at h
        rw [hfs] at h
        cases h
        rfl
  refine removeEntries_done (List.prefix_append D ms) hkept hentry
    ((horder _ _).nodup_iff.mpr (nodup_readdir _ _)) (fun n hn hdots => ?_)
    (s := ⟨s.fs, s.opened ++ [pathBelow path ms]⟩) ⟨hs.within, hs.inside, fun q hq => ?_⟩ h hlink
  · exact mem_readdir.mp ⟨(horder _ _).mem_iff.mp hn, hdots⟩
  · rw [List.mem_append, List.mem_singleton] at hq
    rcases hq with hq | rfl
    · exact hs.opened q hq
    · refine .inr fun target => ?_
      rw [lstat, hloc, Option.bind_some, hdir₀]
      simp

/-- **Nothing fails while a link is left.** -/
theorem removeDir_done {fuel : ℕ} (hms : ms ≠ []) (hs : Kept fs₀ (D <+: ·) ⟨fs₀, []⟩ s)
    (hdir : s.fs.node (D ++ ms) = some .dir) (h : removeDir order fuel (pathBelow path ms) s = .ok (r, s'))
    (hlink : s'.fs.node (D ++ ns) = some (.link target)) : r = 0 := by
  induction fuel generalizing ms r s s' with
  | zero => cases h
  | succ fuel ih =>
    obtain ⟨k, r₁, s₁, hk, hcontents, hcase⟩ := removeDir_eq_ok h
    obtain rfl : fuel = k := Nat.succ.inj hk
    obtain ⟨hkept, hgone⟩ := hsafe.contents_kept _ hpath horder (hs.within.node hdir) hs.within hcontents
    have hdone : s₁.fs.node (D ++ ns) = some (.link target) → r₁ = 0 :=
      removeContents_done _ hpath hsafe horder (fun n u r u' hu hchild hr hl => ih (by simp) hu hchild hr hl) hs hdir
        hcontents
    rcases hcase with ⟨hne, -, rfl⟩ | ⟨hzero, -, rfl, hrmdir⟩ | ⟨-, hr, -⟩
    · exact absurd (hdone hlink) hne
    · -- the directory is empty, and its path name still stands for it
      have hdir' : s'.fs.node (D ++ ms) = some .dir := by
        refine hkept.node hdir ?_
        rintro ⟨n, hle⟩
        simpa using hle.length_le
      have hs' : Kept fs₀ (D <+: ·) ⟨fs₀, []⟩ s' :=
        hs.trans (hkept.mono fun l ⟨n, hle⟩ => (List.prefix_append D ms).trans ((List.prefix_append _ _).trans hle))
      have hl := lresolve_left hpath hsafe hs' hlink hdir'
      obtain ⟨ms, n, rfl⟩ := (List.eq_nil_or_concat' ms).resolve_left hms
      have hname := names_of_node hdir' n (List.mem_append_right _ (List.mem_singleton_self n))
      have hlen := (lresolve_eq_some.mp hl).1
      rw [pathBelow_concat] at hl hlen hrmdir
      rw [rmdir_of_bare hname hlen hl hdir' (bare_iff.mpr (hgone hzero))] at hrmdir
      cases hrmdir
    · exact hr

end Removed

theorem removesTree_of_linksRemovable {fs : FileTree} {path : List Char} (hsafe : fs.LinksRemovable path) :
    fs.RemovesTree path := by
  intro order horder
  obtain ⟨r, s, hrun⟩ : ∃ r s, removeDir order (pathMax + 1) path ⟨fs, []⟩ = .ok (r, s) :=
    removeDir_ok (Nat.le_add_right pathMax _) _
  refine ⟨pathMax + 1, r, s, hrun, ?_⟩
  obtain ⟨k, r₁, s₁, hk, hcontents, hcase⟩ := removeDir_eq_ok hrun
  cases hopen : fs.opendir order path with
  | none =>
    rw [removeContents, hopen] at hcontents
    cases hcontents
    obtain ⟨rfl, rfl⟩ : r = -1 ∧ s = ⟨fs, []⟩ := by
      rcases hcase with ⟨-, h, h'⟩ | ⟨h, -⟩ | ⟨h, -⟩
      · exact ⟨h, h'⟩
      · exact absurd h (by norm_num)
      · exact absurd h (by norm_num)
    refine ⟨fun x hx hnot => absurd hx hnot, fun q hq => absurd hq List.not_mem_nil, fun D ns target hD hlink => ?_,
      fun hzero => absurd hzero (by norm_num)⟩
    -- a directory with a link in it would have opened
    have hdir := node_dir_of_append hlink (hsafe D ns target hD hlink).1
    obtain ⟨j, hj⟩ := resolve_of_lresolve hD (.inl hdir)
    rw [opendir_eq_some.mpr ⟨_, hj, hdir, rfl⟩] at hopen
    cases hopen
  | some names =>
    obtain ⟨t, ht, hdir, -⟩ := opendir_eq_some.mp hopen
    have hpath : fs.lresolve path = some t.1 := by
      obtain ⟨l, hl, rfl | ⟨target, hlink⟩⟩ := exists_lresolve ht
      · exact hl
      · exact absurd rfl (hsafe l [] target hl (by rwa [List.append_nil])).1
    have hdir' : fs.node (t.1 ++ []) = some .dir := by rwa [List.append_nil]
    obtain ⟨hkept, -⟩ := hsafe.kept [] hpath horder hdir' (Within.refl fs) hrun
    rw [List.append_nil] at hkept
    refine ⟨fun x hx hnot => ⟨t.1, hpath, hkept.inside x hx hnot⟩,
      fun q hq => (hkept.opened q hq).resolve_left List.not_mem_nil, fun D ns target hD hlink => ?_, ?_⟩
    · obtain rfl : D = t.1 := Option.some.inj (hD.symm.trans hpath)
      by_contra hleft
      obtain ⟨e, he⟩ := Option.ne_none_iff_exists'.mp hleft
      obtain rfl : e = .link target := Option.some.inj ((hkept.within.node he).symm.trans hlink)
      have hs₁ : s₁.fs.node (t.1 ++ ns) = some (.link target) := by
        rcases hcase with ⟨-, -, rfl⟩ | ⟨-, -, rfl, -⟩ | ⟨-, -, fs, hrmdir, rfl⟩
        · exact he
        · exact he
        · obtain ⟨l, hbare, -, -, rfl⟩ := rmdir_eq_some hrmdir
          exact (remove_within hbare).node he
      have hzero : r₁ = 0 := removeContents_done [] hpath hsafe horder
        (fun n u r u' hu hchild hr hl => removeDir_done hpath hsafe horder (by simp) hu hchild hr hl) (Kept.refl _) hdir'
        hcontents hs₁
      obtain ⟨n, ns, rfl⟩ := List.exists_cons_of_ne_nil (hsafe t.1 ns target hpath hlink).1
      obtain ⟨-, hgone⟩ := hsafe.contents_kept [] hpath horder hdir' (Within.refl fs) hcontents
      have hnone := hgone hzero n
      rw [List.append_nil] at hnone
      rw [List.append_cons] at hs₁
      obtain ⟨e', he'⟩ := node_of_append _ hs₁
      rw [hnone] at he'
      cases he'
    · rintro rfl
      exact removeDir_gone hrun

/-! ### Links that cannot be removed -/

section Order

variable {fs : FileTree} {loc l : Loc} {n : Name} {rest : List Name}

/-- Every directory is read so that what leads to `l` comes first. -/
def firstOrder (l loc : Loc) (names : List Name) : List Name :=
  names.filter (fun n => loc ++ [n] <+: l) ++ names.filter fun n => ¬ loc ++ [n] <+: l

/-- Every directory is read so that what leads to `l` comes last. -/
def lastOrder (l loc : Loc) (names : List Name) : List Name :=
  names.filter (fun n => ¬ loc ++ [n] <+: l) ++ names.filter fun n => loc ++ [n] <+: l

theorem firstOrder_perm (l loc : Loc) (names : List Name) : (firstOrder l loc names).Perm names := by
  have h := List.filter_append_perm (fun n => decide (loc ++ [n] <+: l)) names
  simpa [firstOrder] using h

theorem lastOrder_perm (l loc : Loc) (names : List Name) : (lastOrder l loc names).Perm names :=
  List.perm_append_comm.trans (firstOrder_perm l loc names)

/-- Only one name leads on. -/
theorem prefix_name_iff {m : Name} : loc ++ [m] <+: loc ++ n :: rest ↔ m = n := by
  rw [List.prefix_append_right_inj, List.cons_prefix_cons]
  simp

theorem filter_readdir (hn : n ∈ fs.readdir loc) (rest : List Name) :
    ∃ names, ((fs.readdir loc).filter fun m => loc ++ [m] <+: loc ++ n :: rest) = n :: names := by
  have hmem : n ∈ (fs.readdir loc).filter fun m => loc ++ [m] <+: loc ++ n :: rest :=
    List.mem_filter.mpr ⟨hn, decide_eq_true (prefix_name_iff.mpr rfl)⟩
  cases hnames : (fs.readdir loc).filter fun m => loc ++ [m] <+: loc ++ n :: rest with
  | nil =>
    rw [hnames] at hmem
    cases hmem
  | cons m names =>
    have hm : m ∈ (fs.readdir loc).filter fun m => loc ++ [m] <+: loc ++ n :: rest := hnames ▸ List.mem_cons_self
    obtain rfl := prefix_name_iff.mp (of_decide_eq_true (List.mem_filter.mp hm).2)
    exact ⟨names, rfl⟩

end Order

section Left

variable {fs : FileTree} {path p : List Char} {D : Loc} {n : Name} {ms ns rest names : List Name} {e : Inode}
  {target : List Char} {r r₁ : ℤ} {s s' s₁ : Removal} {order : Loc → List Name → List Name} {F : List (List Char)}
  {remove : List Char → Removal → Exec (ℤ × Removal)}

theorem removeEntries_append {xs ys : List Name} (h : removeEntries remove p (xs ++ ys) s = .ok (r, s')) :
    ∃ r₁ s₁, removeEntries remove p xs s = .ok (r₁, s₁) ∧
      (r₁ = 0 ∧ removeEntries remove p ys s₁ = .ok (r, s') ∨ r₁ ≠ 0 ∧ r = r₁ ∧ s' = s₁) := by
  induction xs generalizing s with
  | nil => exact ⟨0, s, rfl, .inl ⟨rfl, h⟩⟩
  | cons n xs ih =>
    rw [List.cons_append, removeEntries] at h
    rw [removeEntries]
    split at h
    next hdots =>
      rw [if_pos hdots]
      exact ih h
    next hdots =>
      obtain ⟨⟨r₁, s₁⟩, hfirst, h⟩ := bind_eq_ok.mp h
      rw [if_neg hdots, hfirst, bind_ok]
      dsimp only at h ⊢
      split at h
      next hzero =>
        rw [if_pos hzero]
        exact ih h
      next hne =>
        cases h
        rw [if_neg hne]
        exact ⟨_, _, rfl, .inr ⟨hne, rfl, rfl⟩⟩

/-- The first name of a directory fails. -/
theorem removeEntries_first (hn : IsName n) (h : removeEntries remove p (n :: names) s = .ok (r, s'))
    (hentry : ∀ r₁ s₁, removeEntry remove (p ++ '/' :: n) s = .ok (r₁, s₁) → s₁.opened ⊆ s'.opened → r₁ ≠ 0)
    (hopened : ∀ q u r u', remove q u = .ok (r, u') → u.opened ⊆ u'.opened) :
    removeEntry remove (p ++ '/' :: n) s = .ok (r, s') := by
  rw [removeEntries, if_neg (not_or.mpr ⟨hn.2.1, hn.2.2.1⟩)] at h
  obtain ⟨⟨r₁, s₁⟩, hfirst, h⟩ := bind_eq_ok.mp h
  dsimp only at h
  split at h
  next hzero => exact absurd hzero (hentry r₁ s₁ hfirst (removeEntries_opened hopened h))
  next =>
    cases h
    exact hfirst

/-- A call whose contents are not removed. -/
theorem removeDir_of_contents {fuel : ℕ} {P : Removal → Prop} (h : removeDir order fuel p s = .ok (r, s'))
    (hcontents : ∀ k r₁ s₁, fuel = k + 1 → removeContents order (removeDir order k) p s = .ok (r₁, s₁) →
      s₁.opened ⊆ s'.opened → r₁ ≠ 0 ∧ P s₁) : r ≠ 0 ∧ P s' := by
  obtain ⟨k, r₁, s₁, hk, hrun, hcase⟩ := removeDir_eq_ok h
  have hopened : s₁.opened ⊆ s'.opened := by
    rcases hcase with ⟨-, -, rfl⟩ | ⟨-, -, rfl, -⟩ | ⟨-, -, fs, -, rfl⟩ <;> exact List.Subset.refl _
  obtain ⟨hne, hP⟩ := hcontents k r₁ s₁ hk hrun hopened
  rcases hcase with ⟨-, rfl, rfl⟩ | ⟨hzero, -⟩ | ⟨hzero, -⟩
  · exact ⟨hne, hP⟩
  · exact absurd hzero hne
  · exact absurd hzero hne

/-- The removal goes straight down to a path name that is too long, and gives up. -/
theorem removeDir_straight (hpath : fs.lresolve path = some D) (he : fs.node (D ++ ns) = some e)
    (hlong : pathMax ≤ (pathBelow path ns).length) (hms : ms ++ rest = ns) (hs : s.fs = fs) {fuel : ℕ}
    (h : removeDir (firstOrder (D ++ ns)) fuel (pathBelow path ms) s = .ok (r, s')) : r ≠ 0 ∧ s'.fs = fs := by
  induction rest generalizing ms s fuel r s' with
  | nil =>
    rw [List.append_nil] at hms
    subst hms
    refine removeDir_of_contents (P := fun u => u.fs = fs) h fun k r₁ s₁ _ hcontents _ => ?_
    rw [removeContents, opendir, resolve, if_pos hlong, Option.bind_none] at hcontents
    cases hcontents
    exact ⟨by norm_num, hs⟩
  | cons n rest ih =>
    refine removeDir_of_contents (P := fun u => u.fs = fs) h fun k r₁ s₁ _ hcontents _ => ?_
    unfold removeContents at hcontents
    split at hcontents
    next =>
      cases hcontents
      exact ⟨by norm_num, hs⟩
    next names hopen =>
      subst hs
      obtain ⟨t, ht, -, rfl⟩ := opendir_eq_some.mp hopen
      have he' : s.fs.node (D ++ ms ++ n :: rest) = some e := by rwa [List.append_assoc, hms]
      have hdir := node_dir_of_append he' (by simp)
      obtain ⟨j, hj⟩ := resolve_of_lresolve (lresolve_below hpath hdir (resolve_eq_walk.mp ht).1) (.inl hdir)
      obtain rfl : t = (D ++ ms, j) := Option.some.inj (ht.symm.trans hj)
      obtain ⟨e', hn⟩ : ∃ e', s.fs.node (D ++ ms ++ [n]) = some e' :=
        node_of_append rest (by rwa [List.append_assoc, List.singleton_append])
      have hname := isName_of_node hn
      obtain ⟨names, hnames⟩ := filter_readdir (mem_readdir.mpr ⟨e', hn⟩).1 rest
      rw [← hms, ← List.append_assoc, firstOrder, hnames, List.cons_append] at hcontents
      have hchild : ∀ r₁ s₁, removeEntry (removeDir (firstOrder (D ++ ns)) k) (pathBelow path (ms ++ [n]))
          ⟨s.fs, s.opened ++ [pathBelow path ms]⟩ = .ok (r₁, s₁) → r₁ ≠ 0 ∧ s₁.fs = s.fs := by
        intro r₁ s₁ h
        unfold removeEntry at h
        split at h
        next =>
          cases h
          exact ⟨by norm_num, rfl⟩
        next =>
          have hms' : ms ++ [n] ++ rest = ns := by rw [List.append_assoc, List.singleton_append, hms]
          exact @ih (ms ++ [n]) r₁ ⟨s.fs, s.opened ++ [pathBelow path ms]⟩ s₁ hms' rfl k h
        next hne hstat =>
          -- what is on the way is a directory
          obtain ⟨u, hu, -⟩ := stat_eq_some.mp hstat
          have hlen := (resolve_eq_walk.mp hu).1
          have hrest : rest ≠ [] := by
            rintro rfl
            rw [hms] at hlen
            omega
          have hbelow : s.fs.node (D ++ (ms ++ [n]) ++ rest) = some e := by
            rw [List.append_assoc, List.append_assoc, List.singleton_append, hms]
            exact he
          have hdir' := node_dir_of_append hbelow hrest
          have hstat' := stat_of_lresolve (lresolve_below hpath hdir' hlen) (.inl hdir')
          rw [hdir'] at hstat'
          exact absurd (Option.some.inj (hstat.symm.trans hstat')) hne
      rw [pathBelow_concat, ← hms, ← List.append_assoc] at hchild
      exact hchild _ _ (removeEntries_first hname hcontents (fun r₁ s₁ h _ => (hchild r₁ s₁ h).1)
        fun _ _ _ _ => removeDir_opened)

/-- One directory on the way to the link at `D ++ ns`, if the removal gives up on the next one. -/
theorem removeDir_last_step (hpath : fs.lresolve path = some D)
    (hno : ∀ ms target, fs.node (D ++ ms) = some (.link target) → fs.stat (pathBelow path ms) = some .dir →
      pathBelow path ms ∉ F)
    (hms : ms ++ n :: rest = ns) (hs : s.fs.Within fs) (hleft : s.fs.node (D ++ ns) = some (.link target))
    (hgone : ∀ x ∈ s.fs.entries, D <+: x.1 → x.1 <+: D ++ ns ∨ D ++ ms <+: x.1) {fuel : ℕ}
    (hchild : ∀ k u r₁ u', fuel = k + 1 → u.fs.Within fs → u.fs.node (D ++ ns) = some (.link target) →
      (∀ x ∈ u.fs.entries, D <+: x.1 → x.1 <+: D ++ ns ∨ D ++ (ms ++ [n]) <+: x.1) →
      removeEntry (removeDir (lastOrder (D ++ ns)) k) (pathBelow path (ms ++ [n])) u = .ok (r₁, u') → u'.opened ⊆ F →
        r₁ ≠ 0 ∧ u'.fs.node (D ++ ns) = some (.link target))
    (h : removeDir (lastOrder (D ++ ns)) fuel (pathBelow path ms) s = .ok (r, s')) (hopened : s'.opened ⊆ F) :
    r ≠ 0 ∧ s'.fs.node (D ++ ns) = some (.link target) := by
  refine removeDir_of_contents (P := fun u => u.fs.node (D ++ ns) = some (.link target)) h
    fun k r₁ s₁ hk hcontents hsub => ?_
  have hF₁ := List.Subset.trans hsub hopened
  unfold removeContents at hcontents
  split at hcontents
  next =>
    cases hcontents
    exact ⟨by norm_num, hleft⟩
  next names hopen =>
    obtain ⟨t, ht, -, rfl⟩ := opendir_eq_some.mp hopen
    have hleft' : s.fs.node (D ++ ms ++ n :: rest) = some (.link target) := by rwa [List.append_assoc, hms]
    have hdir := hs.node (node_dir_of_append hleft' (by simp))
    have hloc := lresolve_below hpath hdir (resolve_eq_walk.mp ht).1
    obtain ⟨j, hj⟩ := resolve_of_lresolve hloc (.inl hdir)
    obtain rfl : t = (D ++ ms, j) := Option.some.inj ((hs.resolve ht).symm.trans hj)
    obtain ⟨e', hn⟩ : ∃ e', s.fs.node (D ++ ms ++ [n]) = some e' :=
      node_of_append rest (by rwa [List.append_assoc, List.singleton_append])
    have hname := isName_of_node hn
    obtain ⟨names, hnames⟩ := filter_readdir (mem_readdir.mpr ⟨e', hn⟩).1 rest
    have hlast : D ++ ns = D ++ ms ++ n :: rest := by rw [List.append_assoc, hms]
    -- the names that do not lead on come first
    rw [lastOrder, hlast, hnames, ← hlast] at hcontents
    obtain ⟨r₂, s₂, hothers, hcase⟩ := removeEntries_append hcontents
    have hs₂ : s₂.opened ⊆ F := by
      rcases hcase with ⟨-, hrest⟩ | ⟨-, -, rfl⟩
      · exact List.Subset.trans (removeEntries_opened (fun _ _ _ _ => removeDir_opened) hrest) hF₁
      · exact hF₁
    have hentry : ∀ m ∈ (s.fs.readdir (D ++ ms)).filter (fun m => ¬ D ++ ms ++ [m] <+: D ++ ns),
        ¬ (m = ['.'] ∨ m = ['.', '.']) → ∀ u r u', u.fs.Within fs →
          removeEntry (removeDir (lastOrder (D ++ ns)) k) (pathBelow path ms ++ '/' :: m) u = .ok (r, u') →
            u'.opened ⊆ F → Kept fs (D ++ ms ++ [m] <+: ·) u u' ∧ (r = 0 → u'.fs.node (D ++ ms ++ [m]) = none) := by
      intro m hm hdots u r u' hu h hF
      obtain ⟨e, he⟩ := mem_readdir.mp ⟨(List.mem_filter.mp hm).1, hdots⟩
      have hnot := hno (ms ++ [m])
      rw [pathBelow_concat, ← List.append_assoc] at hnot
      refine removeEntry_kept hloc hdir (isName_of_node he) hnot (fun r s' => removeDir_opens)
        (fun _ hmdir hr => ?_) hu h hF
      rw [← pathBelow_concat] at hr
      rw [List.append_assoc] at hmdir ⊢
      exact removeDir_kept hpath hno (lastOrder_perm (D ++ ns)) hmdir hu hr hF
    obtain ⟨hkept, hothersGone⟩ := removeEntries_kept (s := ⟨s.fs, s.opened ++ [pathBelow path ms]⟩)
      (fun _ _ _ _ => removeDir_opened) hentry hs hothers hs₂
    have hleft₂ : s₂.fs.node (D ++ ns) = some (.link target) := by
      refine hkept.node hleft ?_
      rintro ⟨m, hm, hle⟩
      exact of_decide_eq_true (List.mem_filter.mp hm).2 hle
    rcases hcase with ⟨hzero, hrest⟩ | ⟨hne, rfl, rfl⟩
    · have hgone₂ : ∀ x ∈ s₂.fs.entries, D <+: x.1 → x.1 <+: D ++ ns ∨ D ++ (ms ++ [n]) <+: x.1 := by
        intro x hx hD
        rcases hgone x (hkept.within.entries hx) hD with hle | ⟨t, ht⟩
        · exact .inl hle
        rcases t with _ | ⟨m, t⟩
        · rw [List.append_nil] at ht
          exact .inl (ht ▸ ⟨n :: rest, by rw [List.append_assoc, hms]⟩)
        -- another name would be gone
        obtain ⟨e, he⟩ : ∃ e, s₂.fs.node (D ++ ms ++ [m]) = some e :=
          node_of_append (e := x.2) t (by
            rw [List.append_assoc, List.singleton_append, ht]
            exact node_eq_some.mpr hx)
        rcases eq_or_ne m n with rfl | hmn
        · refine .inr ⟨t, ?_⟩
          rw [← ht]
          simp
        · obtain ⟨hmem, hdots⟩ := mem_readdir.mpr ⟨e, hkept.within.node he⟩
          have hnot : m ∈ (s.fs.readdir (D ++ ms)).filter fun m => ¬ D ++ ms ++ [m] <+: D ++ ns :=
            List.mem_filter.mpr ⟨hmem, decide_eq_true fun hle => hmn (prefix_name_iff.mp (hlast ▸ hle))⟩
          rw [hothersGone hzero m hnot hdots] at he
          cases he
      have hchild₂ := fun r₁ u' => hchild k s₂ r₁ u' hk (hkept.within.trans hs) hleft₂ hgone₂
      rw [pathBelow_concat] at hchild₂
      have hfirst := removeEntries_first hname hrest
        (fun r₁ u' h hsub => (hchild₂ r₁ u' h (List.Subset.trans hsub hF₁)).1) fun _ _ _ _ => removeDir_opened
      exact hchild₂ _ _ hfirst hF₁
    · exact ⟨hne, hleft₂⟩

/-- The removal leaves a link to the end that does not lead to anything then, and gives up. -/
theorem removeDir_last (hpath : fs.lresolve path = some D) (hlink : fs.node (D ++ ns) = some (.link target))
    (hbad : ∀ e, (fs.only D (D ++ ns)).stat (pathBelow path ns) = some e → e = .dir)
    (hF : ∀ q ∈ F, ∀ target, fs.lstat q ≠ some (.link target)) (hms : ms ++ n :: rest = ns) (hs : s.fs.Within fs)
    (hleft : s.fs.node (D ++ ns) = some (.link target))
    (hgone : ∀ x ∈ s.fs.entries, D <+: x.1 → x.1 <+: D ++ ns ∨ D ++ ms <+: x.1) {fuel : ℕ}
    (h : removeDir (lastOrder (D ++ ns)) fuel (pathBelow path ms) s = .ok (r, s')) (hopened : s'.opened ⊆ F) :
    r ≠ 0 ∧ s'.fs.node (D ++ ns) = some (.link target) := by
  -- no link that leads to a directory has been opened
  have hno : ∀ ms target, fs.node (D ++ ms) = some (.link target) → fs.stat (pathBelow path ms) = some .dir →
      pathBelow path ms ∉ F := by
    intro ms target hnode hstat hmem
    obtain ⟨t, ht, -⟩ := stat_eq_some.mp hstat
    refine hF _ hmem target ?_
    rw [lstat, lresolve_below hpath hnode (resolve_eq_walk.mp ht).1, Option.bind_some, hnode]
  induction rest generalizing ms n s fuel r s' with
  | nil =>
    refine removeDir_last_step hpath hno hms hs hleft hgone (fun k u r₁ u' _ hu huleft hugone h hF' => ?_) h hopened
    rw [hms] at h hugone
    unfold removeEntry at h
    split at h
    next =>
      cases h
      exact ⟨by norm_num, huleft⟩
    next hstat => exact absurd (hF' (removeDir_opens hstat h)) (hno ns target hlink (hu.stat hstat))
    next e hne hstat =>
      -- what is left is the link and what leads to it
      refine absurd (hbad e ((within_only hu fun x hx hD => ?_).stat hstat)) hne
      rcases hugone x hx hD with hle | ⟨t, ht⟩
      · exact hle
      · rcases eq_or_ne t [] with rfl | htne
        · exact ⟨[], by rw [← ht, List.append_nil, List.append_nil]⟩
        · have hdir := node_dir_of_append (e := x.2) (ht ▸ node_eq_some.mpr hx) htne
          rw [huleft] at hdir
          cases hdir
  | cons m rest ih =>
    refine removeDir_last_step hpath hno hms hs hleft hgone (fun k u r₁ u' _ hu huleft hugone h hF' => ?_) h hopened
    have hms' : ms ++ [n] ++ m :: rest = ns := by rw [List.append_assoc, List.singleton_append, hms]
    unfold removeEntry at h
    split at h
    next =>
      cases h
      exact ⟨by norm_num, huleft⟩
    next => exact ih hms' hu huleft hugone h hF'
    next hne hstat =>
      -- what is on the way is a directory
      have hbelow : fs.node (D ++ (ms ++ [n]) ++ m :: rest) = some (.link target) := by rwa [List.append_assoc, hms']
      have hdir := node_dir_of_append hbelow (by simp)
      have hstat := hu.stat hstat
      obtain ⟨t, ht, -⟩ := stat_eq_some.mp hstat
      have hstat' := stat_of_lresolve (lresolve_below hpath hdir (resolve_eq_walk.mp ht).1) (.inl hdir)
      rw [hdir] at hstat'
      exact absurd (Option.some.inj (hstat.symm.trans hstat')) hne

end Left

theorem linksRemovable_of_removesTree {fs : FileTree} {path : List Char} (h : fs.RemovesTree path) :
    fs.LinksRemovable path := by
  intro D ns target hpath hlink
  have hns : ns ≠ [] := by
    rintro rfl
    rw [List.append_nil] at hlink
    obtain ⟨fuel, r, s, hrun, hconfined⟩ := h (fun _ names => names) fun _ _ => List.Perm.refl _
    by_cases hstat : fs.stat path = some .dir
    · refine hconfined.notFollowed path (removeDir_opens hstat hrun) target ?_
      rw [lstat, hpath, Option.bind_some, hlink]
    · -- nothing opens, and the link stays
      have hstay : r ≠ 0 ∧ s.fs = fs := by
        refine removeDir_of_contents (P := fun u => u.fs = fs) hrun fun k r₁ s₁ _ hcontents _ => ?_
        unfold removeContents at hcontents
        split at hcontents
        next =>
          cases hcontents
          exact ⟨by norm_num, rfl⟩
        next names hopen =>
          obtain ⟨t, ht, hdir, -⟩ := opendir_eq_some.mp hopen
          exact absurd (stat_eq_some.mpr ⟨t, ht, hdir⟩) hstat
      have hremoved := hconfined.removed D [] target hpath (by rwa [List.append_nil])
      rw [hstay.2, List.append_nil, hlink] at hremoved
      cases hremoved
  refine ⟨hns, ?_, fun ms e he => ?_⟩
  · by_contra hbad
    obtain ⟨fuel, r, s, hrun, hconfined⟩ := h (lastOrder (D ++ ns)) (lastOrder_perm (D ++ ns))
    obtain ⟨n, rest, rfl⟩ := List.exists_cons_of_ne_nil hns
    have hlast := removeDir_last hpath hlink (fun e he => by_contra fun hne => hbad ⟨e, hne, he⟩) hconfined.notFollowed
      (List.nil_append _) (Within.refl fs) hlink (fun x _ hD => .inr (by rwa [List.append_nil])) hrun
      (List.Subset.refl _)
    rw [hconfined.removed D _ target hpath hlink] at hlast
    exact absurd hlast.2 (by simp)
  · by_contra hlong
    obtain ⟨fuel, r, s, hrun, hconfined⟩ := h (firstOrder (D ++ ms)) (firstOrder_perm (D ++ ms))
    obtain ⟨-, hstay⟩ := removeDir_straight hpath he (not_lt.mp hlong) (List.nil_append ms) rfl hrun
    have hremoved := hconfined.removed D ns target hpath hlink
    rw [hstay, hlink] at hremoved
    cases hremoved

/-- **`remove_dir` stays inside its directory and removes the links there**, in whatever order directories are read,
exactly when the path is no link and every link below leads to something that is no directory, also when all the rest
is gone. -/
theorem removes_tree_iff (fs : FileTree) (path : List Char) : fs.RemovesTree path ↔ fs.LinksRemovable path :=
  ⟨linksRemovable_of_removesTree, removesTree_of_linksRemovable⟩

/-- The folder `gendbs` in `w`, in which `l` is a link to `data`, which holds a file. -/
def linkToData : FileTree where
  entries := [([], .dir), ([['d', 'a', 't', 'a']], .dir), ([['d', 'a', 't', 'a'], ['f']], .reg), ([['w']], .dir),
    ([['w'], "gendbs".toList], .dir), ([['w'], "gendbs".toList, ['l']], .link "/data".toList)]
  cwd := [['w']]
  symloop := 40
  nodup := by decide
  parent := by decide
  names := by decide

/-- The file in `data` is removed. -/
theorem linkToData_not_removesTree :
    (okWith (removeDir (fun _ names => names) 3 "./gendbs".toList ⟨linkToData, []⟩) fun x =>
      x.1 = -1 ∧ x.2.fs.node [['d', 'a', 't', 'a'], ['f']] = none) = true ∧
    ¬ linkToData.RemovesTree "./gendbs".toList := by
  refine ⟨by decide +kernel, fun h => ?_⟩
  obtain ⟨-, ⟨e, hne, hstat⟩, -⟩ := linksRemovable_of_removesTree h [['w'], "gendbs".toList] [['l']] "/data".toList
    (by decide +kernel) (by decide +kernel)
  have hdir : (linkToData.only [['w'], "gendbs".toList] ([['w'], "gendbs".toList] ++ [['l']])).stat
      (pathBelow "./gendbs".toList [['l']]) = some .dir := by decide +kernel
  exact hne (Option.some.inj (hstat.symm.trans hdir))

end FileTree

end Dedisbench
