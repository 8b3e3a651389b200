import Mathlib.Data.List.Nodup
import Mathlib.Data.Nat.Notation

/-!
# Path names

A path name is read piece by piece, the pieces being what stands between its slashes.  A location is the list of
the names that lead to it from the root; `locate` is the location a path name stands for, wherever every piece on
the way is a directory.
-/

namespace Paths

/-- The name of a directory entry. -/
abbrev Name := List Char

/-- The names that lead to a file or directory from the root. -/
abbrev Loc := List Name

/-- `PATH_MAX`: the system refuses longer path names, the null at the end included. -/
def pathMax : ℕ := 4096

/-- A name that an entry of a directory can have. -/
def IsName (n : Name) : Prop := n ≠ [] ∧ n ≠ ['.'] ∧ n ≠ ['.', '.'] ∧ '/' ∉ n

instance : DecidablePred IsName := fun n =>
  inferInstanceAs (Decidable (n ≠ [] ∧ n ≠ ['.'] ∧ n ≠ ['.', '.'] ∧ '/' ∉ n))

/-- Where a piece of a path name leads. -/
def step (loc : Loc) (piece : Name) : Loc :=
  if piece = [] ∨ piece = ['.'] then loc
  else if piece = ['.', '.'] then loc.dropLast
  else loc ++ [piece]

/-- Where a path name starts: at the root if its first character is a slash. -/
def start (cwd : Loc) (p : List Char) : Loc := if p.head? = some '/' then [] else cwd

/-- The location of a path name. -/
def locate (cwd : Loc) (p : List Char) : Loc := (p.splitOn '/').foldl step (start cwd p)

variable {cwd loc : Loc} {p q : List Char} {n x : Name}

@[simp] theorem step_nil (loc : Loc) : step loc [] = loc := if_pos (.inl rfl)

theorem step_of_isName (h : IsName n) : step loc n = loc ++ [n] := by
  rw [step, if_neg (not_or.mpr ⟨h.1, h.2.1⟩), if_neg h.2.2.1]

theorem start_append (h : p ≠ []) : start cwd (p ++ q) = start cwd p := by
  cases p with
  | nil => exact absurd rfl h
  | cons c p => rfl

theorem splitOn_slash (p q : List Char) : (p ++ '/' :: q).splitOn '/' = p.splitOn '/' ++ q.splitOn '/' :=
  List.splitOn_append_cons_self p q

theorem splitOn_of_notMem (h : '/' ∉ p) : p.splitOn '/' = [p] := List.splitOn_eq_singleton h

/-- Only one name leads on to a location. -/
theorem name_unique {m : Name} {l : Loc} (h : loc ++ [m] <+: l) (h' : loc ++ [n] <+: l) : m = n := by
  have heq : loc ++ [m] = loc ++ [n] := (List.prefix_of_prefix_length_le h h' (by simp)).eq_of_length (by simp)
  simpa using heq

/-- A name put behind other characters is a name. -/
theorem IsName.append (hn : IsName n) (hx : x ≠ []) (hslash : '/' ∉ x) : IsName (x ++ n) := by
  have hxlen := List.length_pos_iff.mpr hx
  have hnlen := List.length_pos_iff.mpr hn.1
  refine ⟨fun h => hx (List.append_eq_nil_iff.mp h).1, fun h => ?_, fun h => ?_, ?_⟩
  · have hlen := congrArg List.length h
    simp only [List.length_append, List.length_singleton] at hlen
    omega
  · -- two dots are a dot behind a dot
    have hlen := congrArg List.length h
    simp only [List.length_append, List.length_cons, List.length_nil] at hlen
    have hdrop := congrArg (List.drop 1) h
    rw [List.drop_append_of_le_length (by omega), List.drop_of_length_le (by omega)] at hdrop
    exact hn.2.1 hdrop
  · rw [List.mem_append, not_or]
    exact ⟨hslash, hn.2.2.2⟩

/-- What is found at a location in a list of locations, each of which comes once. -/
theorem find?_eq_some_iff {α : Type*} {entries : List (Loc × α)} (hnodup : (entries.map Prod.fst).Nodup) {e : α} :
    (entries.find? fun x => x.1 = loc).map Prod.snd = some e ↔ (loc, e) ∈ entries := by
  rw [Option.map_eq_some_iff]
  constructor
  · rintro ⟨x, hx, rfl⟩
    have hloc : x.1 = loc := by simpa using List.find?_some hx
    rw [← hloc]
    exact List.mem_of_find?_eq_some hx
  · intro hmem
    obtain ⟨x, hx⟩ : ∃ x, entries.find? (fun x => x.1 = loc) = some x := by
      rw [← Option.isSome_iff_exists, List.find?_isSome]
      exact ⟨(loc, e), hmem, decide_eq_true rfl⟩
    have hloc : x.1 = loc := by simpa using List.find?_some hx
    have heq : x = (loc, e) := List.inj_on_of_nodup_map hnodup (List.mem_of_find?_eq_some hx) hmem hloc
    exact ⟨x, hx, by rw [heq]⟩

/-- A path name ends with what stands behind its last slash. -/
theorem exists_last_piece (p : List Char) : '/' ∉ p ∨ ∃ q x, p = q ++ '/' :: x ∧ '/' ∉ x := by
  by_cases h : '/' ∈ p
  · right
    obtain ⟨x, q, heq, hx⟩ := List.eq_append_cons_of_mem (List.mem_reverse.mpr h)
    refine ⟨q.reverse, x.reverse, ?_, by rwa [List.mem_reverse]⟩
    have hp := congrArg List.reverse heq
    simpa using hp
  · exact .inl h

/-- What is put behind a path name becomes the end of its last piece. -/
theorem exists_locate_append (cwd : Loc) (p : List Char) :
    ∃ base x, ∀ n, IsName n → locate cwd (p ++ n) = base ++ [x ++ n] := by
  have hname : ∀ {x n : Name}, '/' ∉ x → IsName n → IsName (x ++ n) := by
    intro x n hx hn
    rcases eq_or_ne x [] with rfl | hne
    · exact hn
    · exact hn.append hne hx
  rcases exists_last_piece p with hp | ⟨q, x, rfl, hx⟩
  · refine ⟨cwd, p, fun n hn => ?_⟩
    have hstart : start cwd (p ++ n) = cwd := by
      rw [start, if_neg]
      intro hhead
      exact (hname hp hn).2.2.2 (List.mem_of_mem_head? hhead)
    rw [locate, hstart, splitOn_of_notMem (hname hp hn).2.2.2, List.foldl_cons, List.foldl_nil,
      step_of_isName (hname hp hn)]
  · refine ⟨(q.splitOn '/').foldl step (start cwd (q ++ '/' :: x)), x, fun n hn => ?_⟩
    rw [locate, start_append (by simp), List.append_assoc, List.cons_append, splitOn_slash,
      splitOn_of_notMem (hname hx hn).2.2.2, List.foldl_append, List.foldl_cons, List.foldl_nil,
      step_of_isName (hname hx hn)]

end Paths
