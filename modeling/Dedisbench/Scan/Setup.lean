import Mathlib.Logic.Function.Basic
import Dedisbench.Lib.Paths
import Dedisbench.Lib.Text
import Dedisbench.Scan.Kept
import Dedisbench.Scan.Search

/-!
# The databases a scan starts from

`main` of `DEDISgen` keeps two databases for every block size, in folders that it names after the position of the
size: the duplicates database, which the scan fills, and the print database, which `gen_output` fills.  Before it
opens them it removes `./benchdbs` and `./gendbs`, unless it is told to keep them, and calls `remove_db` on both.

`remove_db` writes the name of the file right behind that of the folder, so it removes neither
(`setup_content`).  `startsFresh_iff` says for which folders and what earlier contents the databases are as
`main` means them to be.
-/

namespace Dedisbench

open Paths Tally Text ExceptRun

/-! ### Databases on the disk -/

/-- A database file: the records whose keys are digests, and those whose keys are numbers of duplicates. -/
structure DbFile where
  hashes : DuplicateDb
  counts : PrintDb

/-- A database without records. -/
def DbFile.empty : DbFile := ⟨∅, ∅⟩

/-- The eight bytes of a key of the print database. -/
def keyBytes (n : UInt64) : List UInt8 := (List.range 8).map fun i => UInt8.ofNat (n.toNat / 256 ^ i)

/-- A cursor over the file returns the records `recs`, in this order. -/
def DbFile.Cursor (f : DbFile) (recs : List (List UInt8 × UInt64)) : Prop :=
  ∃ hs cs, Visits f.hashes hs ∧ Visits f.counts cs ∧ recs.Perm (hs ++ cs.map fun r => (keyBytes r.1, r.2))

/-- The database files of a disk. -/
abbrev Disk := Loc → Option DbFile

/-- What a database holds, nothing if there is no file. -/
def Disk.content (d : Disk) (loc : Loc) : DbFile := (d loc).getD .empty

/-- The location of the database that `init_db` opens in the folder `nome`. -/
def dbLoc (cwd : Loc) (nome : List Char) : Loc := locate cwd nome ++ ["dht.db".toList]

/-- `init_db`; `mkdir` says whether the folder is there.  Without it the environment does not open, and the
program goes on with a null pointer. -/
def initDb (mkdir : List Char → Bool) (cwd : Loc) (nome : List Char) (d : Disk) : Exec Disk :=
  if mkdir nome then .ok (Function.update d (dbLoc cwd nome) (some (d.content (dbLoc cwd nome))))
  else .error .undefined

/-- `remove_db` -/
def removeDb (cwd : Loc) (nome : List Char) (d : Disk) : Disk :=
  Function.update d (locate cwd (nome ++ "dht.db".toList)) none

/-- `remove_dir` -/
def removeDir (cwd : Loc) (path : List Char) (d : Disk) : Disk := fun loc =>
  if locate cwd path <+: loc then none else d loc

/-! ### What `main` does with them -/

/-- `PRINTDB` -/
def printdb : List Char := "gendbs/printdb/".toList

/-- `DUPLICATEDB` -/
def duplicatedb : List Char := "gendbs/duplicatedb/".toList

/-- The arguments of `DEDISgen` that matter for its databases. -/
structure GenArgs where
  /-- `-z` -/
  dbfolder : Option (List Char)
  /-- `-o` -/
  outputfile : Bool
  /-- no `-k` -/
  removedb : Bool
  /-- the number of block sizes of `-b` -/
  nrSizesProc : ℕ

def GenArgs.printdbpath (_ : GenArgs) (aux : ℕ) : List Char := printdb ++ decimal aux

def GenArgs.duplicatedbpath (a : GenArgs) (aux : ℕ) : List Char := a.dbfolder.getD duplicatedb ++ decimal aux

section Defs

variable (sha1 : List UInt8 → Digest) (mkdir : List Char → Bool) (cwd : Loc) (a : GenArgs)

/-- One round of the loop of `main` that opens the databases.  `sizeid` has five characters, and
`duplicatedbpath` a hundred. -/
def setupSize (d : Disk) (aux : ℕ) : Exec Disk := do
  if 5 ≤ (decimal aux).length ∨ 100 ≤ (a.duplicatedbpath aux).length then .error .undefined
  else
    let d := removeDb cwd (a.duplicatedbpath aux) d
    let d := removeDb cwd (a.printdbpath aux) d
    let d ← initDb mkdir cwd (a.duplicatedbpath aux) d
    if a.outputfile then initDb mkdir cwd (a.printdbpath aux) d else .ok d

/-- The disk without the folders of an earlier run, unless they are kept. -/
def removeOld (d : Disk) : Disk :=
  if a.removedb then removeDir cwd "./gendbs".toList (removeDir cwd "./benchdbs".toList d) else d

/-- `main`, up to the scan. -/
def setup (d : Disk) : Exec Disk := (List.range a.nrSizesProc).foldlM (setupSize mkdir cwd a) (removeOld cwd a d)

/-- The duplicates database for the size at position `aux`. -/
def duplicateLoc (aux : ℕ) : Loc := dbLoc cwd (a.duplicatedbpath aux)

/-- The print database for the size at position `aux`. -/
def printLoc (aux : ℕ) : Loc := dbLoc cwd (a.printdbpath aux)

/-- A block of the size at position `aux` is entered in its database. -/
def enterBlock (aux : ℕ) (d : Disk) (block : List UInt8) : Disk :=
  let f := d.content (duplicateLoc cwd a aux)
  Function.update d (duplicateLoc cwd a aux)
    (some { f with hashes := (checkDuplicates sha1 (.ofNat block.length) (.kept f.hashes) block).db })

/-- The scan, for the blocks that it finds, each with the position of its size. -/
def enterBlocks (d : Disk) (found : List (ℕ × List UInt8)) : Disk :=
  found.foldl (fun d x => enterBlock sha1 cwd a x.1 d x.2) d

/-- `gen_output` for the size at position `aux`, the cursor returning the records `recs`. -/
def genOutputAt (aux : ℕ) (recs : List (List UInt8 × UInt64)) (d : Disk) : Disk :=
  let f := d.content (printLoc cwd a aux)
  Function.update d (printLoc cwd a aux) (some { f with counts := genOutput recs f.counts })

/-- The calls of `gen_output` for the first sizes.  Where a database is its own print database, the cursor may
also return what is put there meanwhile. -/
inductive Outputs : ℕ → Disk → Disk → Prop
  | zero (d : Disk) : Outputs 0 d d
  | succ {aux : ℕ} {d d' : Disk} {recs : List (List UInt8 × UInt64)} (h : Outputs aux d d')
      (hrecs : duplicateLoc cwd a aux ≠ printLoc cwd a aux → (d'.content (duplicateLoc cwd a aux)).Cursor recs) :
      Outputs (aux + 1) d (genOutputAt cwd a aux recs d')

end Defs

/-! ### What `main` means -/

section Fresh

variable (sha1 : List UInt8 → Digest) (mkdir : List Char → Bool) (cwd : Loc) (a : GenArgs)

/-- The blocks found for the size at position `aux`. -/
def blocksAt (aux : ℕ) (found : List (ℕ × List UInt8)) : List (List UInt8) :=
  (found.filter fun x => x.1 = aux).map Prod.snd

/-- The scan and `gen_output` start from the databases they are meant to: on a disk that held `disk`, and holds `d`
when the scan starts. -/
structure Fresh (disk d : Disk) (found : List (ℕ × List UInt8)) : Prop where
  /-- without `-k`, no duplicates database has a record -/
  duplicates : a.removedb → ∀ aux < a.nrSizesProc, d.content (duplicateLoc cwd a aux) = .empty
  /-- no print database has a record when `gen_output` starts -/
  prints : a.outputfile → ∀ aux < a.nrSizesProc, ∀ d', Outputs cwd a aux (enterBlocks sha1 cwd a d found) d' →
    d'.content (printLoc cwd a aux) = .empty
  /-- the duplicates database has the blocks of this run, and what was kept -/
  blocks : a.outputfile → ∀ aux < a.nrSizesProc, ∀ d', Outputs cwd a aux (enterBlocks sha1 cwd a d found) d' →
    let kept := if a.removedb then .empty else disk.content (duplicateLoc cwd a aux)
    d'.content (duplicateLoc cwd a aux) =
      { kept with hashes := addAll kept.hashes ((keysOf sha1 (blocksAt aux found)).map fun k => (k, 1)) }
  /-- the print database comes to be the histogram of the duplicates database -/
  distribution : a.outputfile → ∀ aux < a.nrSizesProc, ∀ d' recs,
    Outputs cwd a aux (enterBlocks sha1 cwd a d found) d' → (d'.content (duplicateLoc cwd a aux)).Cursor recs →
    (genOutputAt cwd a aux recs d').content (printLoc cwd a aux) = ⟨∅, tally UInt64 (recs.map fun r => r.2 - 1)⟩

/-- Whatever the disk holds when the scan starts, the databases are those that are meant. -/
def StartsFresh (disk : Disk) (found : List (ℕ × List UInt8)) : Prop :=
  ∀ d, setup mkdir cwd a disk = .ok d → Fresh sha1 cwd a disk d found

/-- The paths fit their arrays, and the folders are made. -/
structure SetupFits : Prop where
  sizeid : ∀ aux < a.nrSizesProc, (decimal aux).length < 5
  path : ∀ aux < a.nrSizesProc, (a.duplicatedbpath aux).length < 100
  duplicates : ∀ aux < a.nrSizesProc, mkdir (a.duplicatedbpath aux)
  prints : a.outputfile → ∀ aux < a.nrSizesProc, mkdir (a.printdbpath aux)

/-- The folders and the earlier contents for which that is so. -/
structure FreshWhen (disk : Disk) (found : List (ℕ × List UInt8)) : Prop where
  /-- without `-k`, the folder of the duplicates databases is in one that is removed, or they were empty -/
  removed : a.removedb → ∀ aux < a.nrSizesProc, locate cwd "./benchdbs".toList <+: duplicateLoc cwd a aux ∨
    locate cwd "./gendbs".toList <+: duplicateLoc cwd a aux ∨ disk.content (duplicateLoc cwd a aux) = .empty
  /-- with `-k`, the print databases were empty -/
  kept : a.outputfile → a.removedb = false → ∀ aux < a.nrSizesProc, disk.content (printLoc cwd a aux) = .empty
  /-- no block is entered in a print database -/
  apart : a.outputfile → ∀ aux < a.nrSizesProc, ∀ x ∈ found, duplicateLoc cwd a x.1 ≠ printLoc cwd a aux

end Fresh

/-! ### Locations -/

section Locations

variable {mkdir : List Char → Bool} {cwd : Loc} {a : GenArgs} {d d' : Disk} {loc l : Loc} {i j aux : ℕ}

theorem isName_decimal (n : ℕ) : IsName (decimal n) := by
  refine ⟨decimal_ne_nil n, fun h => ?_, fun h => ?_, notMem_decimal (by decide)⟩
  · have hdot : '.' ∈ decimal n := by simp [h]
    exact notMem_decimal (by decide) hdot
  · have hdot : '.' ∈ decimal n := by simp [h]
    exact notMem_decimal (by decide) hdot

theorem isName_dht : IsName "dht.db".toList := by decide

theorem decimal_injective : Function.Injective decimal := fun m n h => by
  rw [← digitsValue_decimal m, h, digitsValue_decimal]

/-- Digits put before a number do not make it smaller. -/
theorem le_of_append_decimal {x : List Char} (h : x ++ decimal i = decimal j) : i ≤ j := by
  have hj := congrArg digitsValue h
  rw [digitsValue_decimal, digitsValue, Nat.ofDigitChars_append, Nat.ofDigitChars_eq_ofDigitChars_zero] at hj
  have hi := digitsValue_decimal i
  rw [digitsValue] at hi
  omega

/-- The location of a database in `gendbs`. -/
theorem dbLoc_gendbs (cwd : Loc) (folder : Name) (hfolder : IsName folder) (aux : ℕ) :
    dbLoc cwd ("gendbs".toList ++ '/' :: (folder ++ '/' :: decimal aux)) =
      cwd ++ ["gendbs".toList, folder, decimal aux] ++ ["dht.db".toList] := by
  have hstart : start cwd ("gendbs".toList ++ '/' :: (folder ++ '/' :: decimal aux)) = cwd := rfl
  rw [dbLoc, locate, hstart, splitOn_slash, splitOn_slash, splitOn_of_notMem (by decide),
    splitOn_of_notMem hfolder.2.2.2, splitOn_of_notMem (isName_decimal aux).2.2.2]
  simp only [List.singleton_append, List.foldl_cons, List.foldl_nil, step_of_isName (isName_decimal aux),
    step_of_isName hfolder]
  rw [step_of_isName (by decide)]
  simp only [List.append_assoc, List.cons_append, List.nil_append]

theorem printLoc_eq (cwd : Loc) (a : GenArgs) (aux : ℕ) :
    printLoc cwd a aux = cwd ++ ["gendbs".toList, "printdb".toList, decimal aux] ++ ["dht.db".toList] :=
  dbLoc_gendbs cwd "printdb".toList (by decide) aux

theorem duplicateLoc_default (cwd : Loc) (h : a.dbfolder = none) (aux : ℕ) :
    duplicateLoc cwd a aux = cwd ++ ["gendbs".toList, "duplicatedb".toList, decimal aux] ++ ["dht.db".toList] := by
  rw [duplicateLoc, GenArgs.duplicatedbpath, h]
  exact dbLoc_gendbs cwd "duplicatedb".toList (by decide) aux

/-- The duplicates databases lie in folders whose names differ in the number at their end. -/
theorem exists_duplicateLoc (cwd : Loc) (a : GenArgs) :
    ∃ base x, ∀ aux, duplicateLoc cwd a aux = base ++ [x ++ decimal aux] ++ ["dht.db".toList] := by
  obtain ⟨base, x, h⟩ := exists_locate_append cwd (a.dbfolder.getD duplicatedb)
  refine ⟨base, x, fun aux => ?_⟩
  rw [duplicateLoc, dbLoc, GenArgs.duplicatedbpath, h _ (isName_decimal aux)]

theorem duplicateLoc_injective (h : duplicateLoc cwd a i = duplicateLoc cwd a j) : i = j := by
  obtain ⟨base, x, hloc⟩ := exists_duplicateLoc cwd a
  rw [hloc, hloc] at h
  have hx : x ++ decimal i = x ++ decimal j := by simpa using h
  exact decimal_injective (List.append_cancel_left hx)

theorem printLoc_injective (h : printLoc cwd a i = printLoc cwd a j) : i = j := by
  rw [printLoc_eq, printLoc_eq] at h
  exact decimal_injective (by simpa using h)

/-- A duplicates database that is a print database, too, is that of the same size or of a later one. -/
theorem le_of_duplicateLoc_eq (h : duplicateLoc cwd a i = printLoc cwd a j) : i ≤ j := by
  obtain ⟨base, x, hloc⟩ := exists_duplicateLoc cwd a
  rw [hloc, printLoc_eq] at h
  have hlast := congrArg (fun l : Loc => l.dropLast.getLast?) h
  simp only [List.dropLast_concat, List.getLast?_append, List.getLast?_cons,
    List.getLast?_nil, Option.getD_none, Option.some.injEq, Option.some_or, Option.getD_some] at hlast
  exact le_of_append_decimal hlast

/-! ### What the setup leaves -/

theorem content_update_self (d : Disk) (loc : Loc) (f : Option DbFile) :
    Disk.content (Function.update d loc f) loc = f.getD .empty := by
  rw [Disk.content, Function.update_self]

theorem content_update_of_ne (d : Disk) (f : Option DbFile) (h : l ≠ loc) :
    Disk.content (Function.update d loc f) l = d.content l := by
  rw [Disk.content, Function.update_of_ne h, ← Disk.content]

/-- **`remove_db` leaves the database where it is**: it removes the file whose name is that of the folder with
`dht.db` behind it. -/
theorem content_removeDb (cwd : Loc) (p : List Char) (aux : ℕ) (d : Disk) (base : Loc) :
    (removeDb cwd (p ++ decimal aux) d).content (base ++ ["dht.db".toList]) = d.content (base ++ ["dht.db".toList]) := by
  obtain ⟨base', x, h⟩ := exists_locate_append cwd p
  have hname : IsName (decimal aux ++ "dht.db".toList) :=
    isName_dht.append (decimal_ne_nil aux) (isName_decimal aux).2.2.2
  rw [removeDb, List.append_assoc, h _ hname]
  apply content_update_of_ne
  intro heq
  have hlast := congrArg List.getLast? heq
  rw [List.getLast?_concat, List.getLast?_concat, Option.some.injEq] at hlast
  have hlen := congrArg List.length hlast
  have hpos := List.length_pos_iff.mpr (decimal_ne_nil aux)
  simp only [List.length_append] at hlen
  omega

theorem content_initDb {nome : List Char} (h : initDb mkdir cwd nome d = .ok d') (loc : Loc) :
    d'.content loc = d.content loc := by
  unfold initDb at h
  split at h
  · cases h
    rcases eq_or_ne loc (dbLoc cwd nome) with rfl | hne
    · rw [content_update_self, Option.getD_some]
    · rw [content_update_of_ne _ _ hne]
  · cases h

theorem mkdir_of_initDb {nome : List Char} (h : initDb mkdir cwd nome d = .ok d') : mkdir nome := by
  unfold initDb at h
  split at h
  · assumption
  · cases h

theorem content_setupSize (h : setupSize mkdir cwd a d aux = .ok d') (base : Loc) :
    d'.content (base ++ ["dht.db".toList]) = d.content (base ++ ["dht.db".toList]) := by
  unfold setupSize at h
  split at h
  · cases h
  simp only [bind_eq_ok] at h
  obtain ⟨t, ht, h⟩ := h
  have htd : t.content (base ++ ["dht.db".toList]) = d.content (base ++ ["dht.db".toList]) := by
    rw [content_initDb ht, GenArgs.printdbpath, content_removeDb, GenArgs.duplicatedbpath, content_removeDb]
  rw [← htd]
  split at h
  · exact content_initDb h _
  · cases h
    rfl

/-- **The setup removes the folders and nothing else.** -/
theorem content_setup (h : setup mkdir cwd a d = .ok d') (base : Loc) :
    d'.content (base ++ ["dht.db".toList]) = (removeOld cwd a d).content (base ++ ["dht.db".toList]) :=
  foldlM_inv (P := fun t : Disk => t.content (base ++ ["dht.db".toList]) =
    (removeOld cwd a d).content (base ++ ["dht.db".toList]))
    (fun _ _ _ _ ht h => (content_setupSize h base).trans ht) rfl h

/-- The setup comes to its end exactly when the paths fit and the folders are made. -/
theorem setup_ok_iff : (∃ d', setup mkdir cwd a d = .ok d') ↔ SetupFits mkdir a := by
  constructor
  · rintro ⟨d', h⟩
    have hsize : ∀ aux < a.nrSizesProc, (decimal aux).length < 5 ∧ (a.duplicatedbpath aux).length < 100 ∧
        mkdir (a.duplicatedbpath aux) ∧ (a.outputfile → mkdir (a.printdbpath aux)) := by
      intro aux haux
      refine foldlM_establishes (P := fun _ => True)
        (Q := fun aux _ => (decimal aux).length < 5 ∧ (a.duplicatedbpath aux).length < 100 ∧
          mkdir (a.duplicatedbpath aux) ∧ (a.outputfile → mkdir (a.printdbpath aux)))
        (fun _ _ _ _ _ _ => trivial) (fun t aux t' _ _ h => ?_) (fun _ _ _ _ _ _ _ h _ => h) trivial h aux
        (List.mem_range.mpr haux)
      unfold setupSize at h
      split at h
      · cases h
      next hfit =>
      simp only [bind_eq_ok] at h
      obtain ⟨u, hu, h⟩ := h
      refine ⟨by omega, by omega, mkdir_of_initDb hu, fun hout => ?_⟩
      rw [if_pos hout] at h
      exact mkdir_of_initDb h
    exact ⟨fun aux h => (hsize aux h).1, fun aux h => (hsize aux h).2.1, fun aux h => (hsize aux h).2.2.1,
      fun hout aux h => (hsize aux h).2.2.2 hout⟩
  · intro hfits
    have hstep : ∀ t aux, aux ∈ List.range a.nrSizesProc → True →
        ∃ t', setupSize mkdir cwd a t aux = .ok t' ∧ True := by
      intro t aux haux _
      have haux := List.mem_range.mp haux
      have hsizeid := hfits.sizeid aux haux
      have hpath := hfits.path aux haux
      rw [setupSize, if_neg (by omega)]
      dsimp only
      rw [initDb, if_pos (hfits.duplicates aux haux), bind_ok]
      split
      next hout =>
        rw [initDb, if_pos (hfits.prints hout aux haux)]
        exact ⟨_, rfl, trivial⟩
      · exact ⟨_, rfl, trivial⟩
    obtain ⟨d', hd', -⟩ := foldlM_ok hstep trivial
    exact ⟨d', hd'⟩

/-! ### What is removed -/

theorem content_removeDir (cwd : Loc) (path : List Char) (d : Disk) (loc : Loc) :
    (removeDir cwd path d).content loc = if locate cwd path <+: loc then .empty else d.content loc := by
  unfold Disk.content removeDir
  split <;> rfl

theorem content_removeOld_of_kept (h : a.removedb = false) : (removeOld cwd a d).content loc = d.content loc := by
  rw [removeOld, if_neg (by simp [h])]

/-- Without `-k` a database is empty if it lies in a folder that is removed, or was empty before. -/
theorem content_removeOld_eq_empty (h : a.removedb = true) :
    (removeOld cwd a d).content loc = .empty ↔ locate cwd "./benchdbs".toList <+: loc ∨
      locate cwd "./gendbs".toList <+: loc ∨ d.content loc = .empty := by
  rw [removeOld, if_pos h, content_removeDir, content_removeDir]
  split
  next hgendbs => exact iff_of_true rfl (.inr (.inl hgendbs))
  next hgendbs =>
  split
  next hbenchdbs => exact iff_of_true rfl (.inl hbenchdbs)
  next hbenchdbs => rw [or_iff_right hbenchdbs, or_iff_right hgendbs]

theorem locate_gendbs (cwd : Loc) : locate cwd "./gendbs".toList = cwd ++ ["gendbs".toList] := by
  have hpath : "./gendbs".toList = ['.'] ++ '/' :: "gendbs".toList := rfl
  have hstart : start cwd "./gendbs".toList = cwd := rfl
  rw [locate, hstart, hpath, splitOn_slash, splitOn_of_notMem (by decide), splitOn_of_notMem (by decide)]
  rfl

theorem under_gendbs (cwd : Loc) (n : Name) (l : Loc) :
    locate cwd "./gendbs".toList <+: cwd ++ ("gendbs".toList :: l) ++ [n] := by
  rw [locate_gendbs, List.append_assoc]
  exact (List.prefix_append_right_inj cwd).mpr (by simp)

theorem content_removeOld_print (h : a.removedb = true) (aux : ℕ) :
    (removeOld cwd a d).content (printLoc cwd a aux) = .empty := by
  rw [content_removeOld_eq_empty h, printLoc_eq]
  exact .inr (.inl (under_gendbs cwd _ _))

/-! ### What the scan and `gen_output` change -/

variable {sha1 : List UInt8 → Digest} {found : List (ℕ × List UInt8)} {block : List UInt8}

theorem content_enterBlock_self (sha1 : List UInt8 → Digest) (cwd : Loc) (a : GenArgs) (aux : ℕ) (d : Disk)
    (block : List UInt8) :
    (enterBlock sha1 cwd a aux d block).content (duplicateLoc cwd a aux) =
      { d.content (duplicateLoc cwd a aux) with
        hashes := add (d.content (duplicateLoc cwd a aux)).hashes (visual (sha1 block)) 1 } := by
  rw [enterBlock, content_update_self, checkDuplicates_db]
  rfl

theorem content_enterBlock_of_ne (h : loc ≠ duplicateLoc cwd a aux) :
    (enterBlock sha1 cwd a aux d block).content loc = d.content loc := content_update_of_ne _ _ h

theorem content_enterBlock_eq_empty :
    (enterBlock sha1 cwd a aux d block).content loc = .empty ↔
      d.content loc = .empty ∧ duplicateLoc cwd a aux ≠ loc := by
  rcases eq_or_ne loc (duplicateLoc cwd a aux) with rfl | hne
  · rw [content_enterBlock_self]
    refine ⟨fun h => ?_, fun h => absurd rfl h.2⟩
    -- the digest of the block is in the database
    have hmem : visual (sha1 block) ∈ add (d.content (duplicateLoc cwd a aux)).hashes (visual (sha1 block)) 1 :=
      mem_add.mpr (.inl rfl)
    have hhashes : add (d.content (duplicateLoc cwd a aux)).hashes (visual (sha1 block)) 1 = ∅ :=
      congrArg DbFile.hashes h
    rw [hhashes] at hmem
    exact absurd hmem Finmap.notMem_empty
  · rw [content_enterBlock_of_ne hne]
    exact ⟨fun h => ⟨h, hne.symm⟩, fun h => h.1⟩

/-- **After the scan a database is empty** if it was before, and no block was entered in it. -/
theorem content_enterBlocks_eq_empty :
    (enterBlocks sha1 cwd a d found).content loc = .empty ↔
      d.content loc = .empty ∧ ∀ x ∈ found, duplicateLoc cwd a x.1 ≠ loc := by
  induction found generalizing d with
  | nil => simp [enterBlocks]
  | cons x found ih =>
    rw [enterBlocks, List.foldl_cons, ← enterBlocks, ih, content_enterBlock_eq_empty, List.forall_mem_cons, and_assoc]

/-- After the scan a duplicates database has the blocks of its size besides what it had. -/
theorem content_enterBlocks (sha1 : List UInt8 → Digest) (cwd : Loc) (a : GenArgs) (aux : ℕ) (d : Disk)
    (found : List (ℕ × List UInt8)) :
    (enterBlocks sha1 cwd a d found).content (duplicateLoc cwd a aux) =
      { d.content (duplicateLoc cwd a aux) with
        hashes := addAll (d.content (duplicateLoc cwd a aux)).hashes
          ((keysOf sha1 (blocksAt aux found)).map fun k => (k, 1)) } := by
  induction found generalizing d with
  | nil => rfl
  | cons x found ih =>
    rw [enterBlocks, List.foldl_cons, ← enterBlocks, ih]
    rcases eq_or_ne x.1 aux with rfl | hne
    · rw [content_enterBlock_self, blocksAt, blocksAt, List.filter_cons_of_pos (by simp)]
      rfl
    · rw [content_enterBlock_of_ne fun h => hne (duplicateLoc_injective h).symm, blocksAt, blocksAt,
        List.filter_cons_of_neg (by simpa using hne)]

/-- `gen_output` changes the print database and no other. -/
theorem Outputs.content (h : Outputs cwd a aux d d') (hl : ∀ j < aux, loc ≠ printLoc cwd a j) :
    d'.content loc = d.content loc := by
  induction h with
  | zero d => rfl
  | succ h hrecs ih =>
    rw [genOutputAt, content_update_of_ne _ _ (hl _ (Nat.lt_succ_self _))]
    exact ih fun j hj => hl j (Nat.lt_succ_of_lt hj)

theorem DbFile.exists_cursor (f : DbFile) : ∃ recs, f.Cursor recs := by
  obtain ⟨hs, hhs⟩ := exists_visits f.hashes
  obtain ⟨cs, hcs⟩ := exists_visits f.counts
  exact ⟨_, hs, cs, hhs, hcs, .refl _⟩

theorem exists_outputs (cwd : Loc) (a : GenArgs) (aux : ℕ) (d : Disk) : ∃ d', Outputs cwd a aux d d' := by
  induction aux with
  | zero => exact ⟨d, .zero d⟩
  | succ aux ih =>
    obtain ⟨d', h⟩ := ih
    obtain ⟨recs, hrecs⟩ := (d'.content (duplicateLoc cwd a aux)).exists_cursor
    exact ⟨_, .succ h fun _ => hrecs⟩

/-- The print database of a size, before `gen_output` gets to it, is as the scan left it. -/
theorem Outputs.content_print (h : Outputs cwd a aux d d') :
    d'.content (printLoc cwd a aux) = d.content (printLoc cwd a aux) :=
  h.content fun _ hj heq => hj.ne' (printLoc_injective heq)

/-- So is the duplicates database. -/
theorem Outputs.content_duplicate (h : Outputs cwd a aux d d') :
    d'.content (duplicateLoc cwd a aux) = d.content (duplicateLoc cwd a aux) :=
  h.content fun _ hj heq => absurd (le_of_duplicateLoc_eq heq) (Nat.not_le.mpr hj)

end Locations

/-! ### What a scan finds -/

section Found

variable (sha1 : List UInt8 → Digest) (cwd : Loc) (a : GenArgs)

/-- The blocks of `n` sizes that turn a disk into another. -/
def FoundBlocks (n : ℕ) (d d' : Disk) : Prop :=
  ∃ found : List (ℕ × List UInt8), (∀ x ∈ found, x.1 < n) ∧ d' = enterBlocks sha1 cwd a d found

variable {sha1 cwd a} {n : ℕ} {d d' d'' : Disk} {sizesProc : List ℤ}

theorem FoundBlocks.refl (d : Disk) : FoundBlocks sha1 cwd a n d d := ⟨[], by simp, rfl⟩

theorem FoundBlocks.trans (h : FoundBlocks sha1 cwd a n d d') (h' : FoundBlocks sha1 cwd a n d' d'') :
    FoundBlocks sha1 cwd a n d d'' := by
  obtain ⟨found, hfound, rfl⟩ := h
  obtain ⟨found', hfound', rfl⟩ := h'
  refine ⟨found ++ found', fun x hx => ?_, ?_⟩
  · exact (List.mem_append.mp hx).elim (hfound x) (hfound' x)
  · rw [enterBlocks, enterBlocks, enterBlocks, List.foldl_append]

theorem chunkLoop_found {aux : ℕ} (haux : aux < n) {blockRead : List UInt8} {size : ℤ}
    (h : chunkLoop (enterBlock sha1 cwd a aux) blockRead size d = .ok d') : FoundBlocks sha1 cwd a n d d' := by
  rw [chunkLoop_eq _ _ (pos_of_chunkLoop h)] at h
  cases h
  refine ⟨(Cut.cut size.toNat blockRead).map fun block => (aux, block), fun x hx => ?_, ?_⟩
  · obtain ⟨block, -, rfl⟩ := List.mem_map.mp hx
    exact haux
  · rw [enterBlocks, List.foldl_map]

theorem readLoop_found {content : List UInt8} {off : ℕ}
    (h : readLoop (fun aux _ => enterBlock sha1 cwd a aux) sizesProc content off d = .ok d') :
    FoundBlocks sha1 cwd a sizesProc.length d d' := by
  induction hk : content.length - off using Nat.strong_induction_on generalizing off d with
  | _ k ih =>
    rw [readLoop] at h
    split at h
    · cases h
      exact .refl _
    next hne =>
      obtain ⟨t, ht, h⟩ := bind_eq_ok.mp h
      have hread : FoundBlocks sha1 cwd a sizesProc.length d t := by
        refine foldlM_inv (P := FoundBlocks sha1 cwd a sizesProc.length d) (fun u size u' hmem hu h => ?_) (.refl d) ht
        exact hu.trans (chunkLoop_found (List.snd_lt_of_mem_zipIdx hmem) h)
      refine hread.trans (ih _ ?_ h rfl)
      simp only [List.length_take, List.length_drop, readsize] at hne
      simp only [readsize]
      omega

theorem extractBlocks_found {file : Option (List UInt8)}
    (h : extractBlocks (fun aux _ => enterBlock sha1 cwd a aux) sizesProc file d = .ok d') :
    FoundBlocks sha1 cwd a sizesProc.length d d' := by
  cases file with
  | none =>
    cases h
    exact .refl _
  | some content => exact readLoop_found h

/-- **The search of a folder enters the blocks that it finds**, and does nothing else to the databases. -/
theorem searchDir_found {fs : FileSystem} {fuel : ℕ} {path : List Char} {s s' : Search Disk}
    (h : searchDir fs (fun aux _ => enterBlock sha1 cwd a aux) sizesProc fuel path s = .ok s') :
    FoundBlocks sha1 cwd a sizesProc.length s.state s'.state := by
  induction fuel generalizing path s s' with
  | zero => cases h
  | succ fuel ih =>
    rw [searchDir] at h
    split at h
    · cases h
      exact .refl _
    next dirents _ =>
      refine foldlM_inv (P := fun t : Search Disk => FoundBlocks sha1 cwd a sizesProc.length s.state t.state)
        (fun t dp t' _ ht h => ht.trans ?_) (.refl _) h
      unfold searchEntry at h
      split at h
      · cases h
        exact .refl _
      split at h
      · cases h
      split at h
      · split at h
        · cases h
        · exact ih h
      · obtain ⟨state, hstate, h⟩ := bind_eq_ok.mp h
        cases h
        exact extractBlocks_found hstate
      · cases h
        exact .refl _

end Found

/-! ### When the databases are those that are meant -/

section Fresh

variable {sha1 : List UInt8 → Digest} {mkdir : List Char → Bool} {cwd : Loc} {a : GenArgs} {disk d : Disk}
  {found : List (ℕ × List UInt8)} {aux : ℕ}

theorem content_setup_duplicate (h : setup mkdir cwd a disk = .ok d) (aux : ℕ) :
    d.content (duplicateLoc cwd a aux) = (removeOld cwd a disk).content (duplicateLoc cwd a aux) :=
  content_setup h _

theorem content_setup_print (h : setup mkdir cwd a disk = .ok d) (aux : ℕ) :
    d.content (printLoc cwd a aux) = (removeOld cwd a disk).content (printLoc cwd a aux) :=
  content_setup h _

/-- The print database that `gen_output` starts from is empty exactly if the setup left it so and no block was
entered in it. -/
theorem Outputs.print_empty_iff {d' : Disk} (h : Outputs cwd a aux (enterBlocks sha1 cwd a d found) d') :
    d'.content (printLoc cwd a aux) = .empty ↔ d.content (printLoc cwd a aux) = .empty ∧
      ∀ x ∈ found, duplicateLoc cwd a x.1 ≠ printLoc cwd a aux := by
  rw [h.content_print, content_enterBlocks_eq_empty]

theorem Fresh.freshWhen (hsetup : setup mkdir cwd a disk = .ok d) (h : Fresh sha1 cwd a disk d found) :
    FreshWhen cwd a disk found := by
  have hprint : a.outputfile → ∀ aux < a.nrSizesProc, d.content (printLoc cwd a aux) = .empty ∧
      ∀ x ∈ found, duplicateLoc cwd a x.1 ≠ printLoc cwd a aux := by
    intro hout aux haux
    obtain ⟨d', hd'⟩ := exists_outputs cwd a aux (enterBlocks sha1 cwd a d found)
    exact hd'.print_empty_iff.mp (h.prints hout aux haux d' hd')
  refine ⟨fun hremove aux haux => ?_, fun hout hkeep aux haux => ?_, fun hout aux haux => (hprint hout aux haux).2⟩
  · have hempty := h.duplicates hremove aux haux
    rwa [content_setup_duplicate hsetup, content_removeOld_eq_empty hremove] at hempty
  · have hempty := (hprint hout aux haux).1
    rwa [content_setup_print hsetup, content_removeOld_of_kept hkeep] at hempty

theorem FreshWhen.fresh (hsetup : setup mkdir cwd a disk = .ok d) (h : FreshWhen cwd a disk found) :
    Fresh sha1 cwd a disk d found := by
  have hprint : a.outputfile → ∀ aux < a.nrSizesProc, ∀ d', Outputs cwd a aux (enterBlocks sha1 cwd a d found) d' →
      d'.content (printLoc cwd a aux) = .empty := by
    intro hout aux haux d' hd'
    rw [hd'.print_empty_iff, content_setup_print hsetup]
    refine ⟨?_, h.apart hout aux haux⟩
    rcases Bool.eq_false_or_eq_true a.removedb with hremove | hkeep
    · exact content_removeOld_print hremove aux
    · rw [content_removeOld_of_kept hkeep]
      exact h.kept hout hkeep aux haux
  have hstart : ∀ aux < a.nrSizesProc, d.content (duplicateLoc cwd a aux) =
      if a.removedb then .empty else disk.content (duplicateLoc cwd a aux) := by
    intro aux haux
    rw [content_setup_duplicate hsetup]
    split
    next hremove => exact (content_removeOld_eq_empty hremove).mpr (h.removed hremove aux haux)
    next hkeep => exact content_removeOld_of_kept (by simpa using hkeep)
  refine ⟨fun hremove aux haux => ?_, hprint, fun hout aux haux d' hd' => ?_,
    fun hout aux haux d' recs hd' _ => ?_⟩
  · rw [hstart aux haux, if_pos hremove]
  · rw [hd'.content_duplicate, content_enterBlocks, hstart aux haux]
  · rw [genOutputAt, content_update_self, hprint hout aux haux d' hd', Option.getD_some]
    simp only [DbFile.empty, genOutput_eq]

theorem StartsFresh.freshWhen (hfits : SetupFits mkdir a) (h : StartsFresh sha1 mkdir cwd a disk found) :
    FreshWhen cwd a disk found := by
  obtain ⟨d, hd⟩ := (setup_ok_iff (d := disk)).mpr hfits
  exact (h d hd).freshWhen hd

/-- In the folder of its own and without `-k`, the program always starts from the databases that it means to. -/
theorem freshWhen_default (hfolder : a.dbfolder = none) (hremove : a.removedb = true) (disk : Disk)
    (found : List (ℕ × List UInt8)) : FreshWhen cwd a disk found where
  removed _ aux _ := by
    rw [duplicateLoc_default cwd hfolder]
    exact .inr (.inl (under_gendbs cwd _ _))
  kept _ hkeep := by
    rw [hremove] at hkeep
    cases hkeep
  apart _ aux _ x _ := by
    rw [duplicateLoc_default cwd hfolder, printLoc_eq]
    simp

/-- **Exactly when the scan and `gen_output` start from the databases they are meant to**, for every folder, every
number of block sizes and whatever the disk held, with `-k` and without. -/
theorem startsFresh_iff (sha1 : List UInt8 → Digest) (mkdir : List Char → Bool) (cwd : Loc) (a : GenArgs)
    (disk : Disk) (found : List (ℕ × List UInt8)) :
    StartsFresh sha1 mkdir cwd a disk found ↔ (SetupFits mkdir a → FreshWhen cwd a disk found) := by
  constructor
  · exact fun h hfits => h.freshWhen hfits
  · intro h d hd
    exact (h (setup_ok_iff.mp ⟨d, hd⟩)).fresh hd

end Fresh

/-- What a run with `-o` leaves that finds one block, in the databases for the first size. -/
def afterRun (a : GenArgs) : Disk :=
  Function.update (Function.update (fun _ => none) (duplicateLoc [] a 0) (some ⟨putDb ∅ (visual (firstBytes [7])) 1, ∅⟩))
    (printLoc [] a 0) (some ⟨∅, putDbPrint ∅ 0 1⟩)

/-- A second run: with `-k` the print database has the count of the first one, and without it a folder of the
user's own still has the duplicates database. -/
theorem secondRun_notFresh :
    ¬ StartsFresh firstBytes (fun _ => true) [] ⟨none, true, false, 1⟩ (afterRun ⟨none, true, false, 1⟩) [(0, [7])] ∧
    ¬ StartsFresh firstBytes (fun _ => true) [] ⟨some "dbs/".toList, true, true, 1⟩
      (afterRun ⟨some "dbs/".toList, true, true, 1⟩) [(0, [7])] := by
  have hfits : ∀ folder removedb, folder.getD duplicatedb = duplicatedb ∨ folder.getD duplicatedb = "dbs/".toList →
      SetupFits (fun _ => true) ⟨folder, true, removedb, 1⟩ := by
    intro folder removedb hfolder
    refine ⟨fun aux haux => ?_, fun aux haux => ?_, fun _ _ => rfl, fun _ _ _ => rfl⟩ <;>
      obtain rfl := Nat.lt_one_iff.mp haux
    · decide
    · rw [GenArgs.duplicatedbpath]
      rcases hfolder with hfolder | hfolder <;> rw [hfolder] <;> decide
  constructor
  · intro h
    have hkept := (h.freshWhen (hfits _ _ (.inl rfl))).kept rfl rfl 0 Nat.one_pos
    rw [afterRun, content_update_self, Option.getD_some] at hkept
    have hcounts := congrArg (fun f : DbFile => valueAt f.counts 0) hkept
    exact absurd hcounts (by decide +kernel)
  · intro h
    rcases (h.freshWhen (hfits _ _ (.inr rfl))).removed rfl 0 Nat.one_pos with hbenchdbs | hgendbs | hempty
    · exact absurd hbenchdbs (by decide +kernel)
    · exact absurd hgendbs (by decide +kernel)
    · rw [afterRun, content_update_of_ne _ _ (by decide +kernel), content_update_self, Option.getD_some] at hempty
      have hhashes := congrArg (fun f : DbFile => valueAt f.hashes (visual (firstBytes [7]))) hempty
      exact absurd hhashes (by decide +kernel)

end Dedisbench
