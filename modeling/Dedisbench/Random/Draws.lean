import Dedisbench.Bench.Offsets
import Dedisbench.Bench.Seeds
import Dedisbench.Random.Calls

/-!
# What a process draws

`genrand` takes a 32-bit number from the generator and would go on with 64-bit ones if it were out of range.  It never
is, for a range that fits a `int64_t`: `genrand` takes one number and no more (`genrand_run`), and for a wider range it
never comes to an end (`genrand_returns_iff`).  So every process knows its offsets from its seed: the numbers of one
process are not those of another (`processes_draw_apart`), and its `k`-th offset is a function of the numbers at fixed
places behind its seed (`process_offsets`).
-/

namespace Dedisbench

namespace Sfmt

open Lagged ExceptRun

/-- `init_rand`: the seed is cut to 32 bits. -/
def initRand (s : State) (seed : ℕ) : Exec State := initGenRand s (UInt32.ofNat seed)

/-- The loop of `genrand` for at most `fuel` rounds, with `t` drawn last. -/
def genrandLoop (bound max : ℕ) : ℕ → ℕ → State → Exec (ℕ × State)
  | 0, t, s => if t < bound then .ok (t % max, s) else .error .diverges
  | fuel + 1, t, s =>
    if t < bound then .ok (t % max, s)
    else do
      let (r, s) ← genRand64 s
      genrandLoop bound max fuel r.toNat s

/-- `genrand` -/
def genrand (fuel max : ℕ) (s : State) : Exec (ℕ × State) := do
  let (r, s) ← genRand32 s
  if max = 0 then .error .divZero else genrandLoop (int64Max / max * max) max fuel r.toNat s

/-- Calls of `genrand` one after the other, each with its range. -/
def genrands (fuel : ℕ) (s : State) (maxs : List ℕ) : Exec (List ℕ × State) :=
  maxs.foldlM (fun x max => do
    let (v, s) ← genrand fuel max x.2
    .ok (x.1 ++ [v], s)) ([], s)

/-- The same calls on a list of what the generator draws. -/
def genrandsOf (raws : List ℕ) (maxs : List ℕ) : Exec (List ℕ × List ℕ) :=
  maxs.foldlM (fun x max => do
    let (v, raws) ← Dedisbench.genrand max x.2
    .ok (x.1 ++ [v], raws)) ([], raws)

section Genrand

variable {w : ℕ → W128} {k max : ℕ} {s : State} {maxs : List ℕ}

/-- The bound of the loop is above every 32-bit number. -/
theorem toNat_lt_bound (hpos : 0 < max) (hle : max ≤ int64Max) (x : UInt32) : x.toNat < int64Max / max * max := by
  have hx := x.toNat_lt
  have hmod : int64Max % max < max := Nat.mod_lt _ hpos
  have hdiv : int64Max / max * max + int64Max % max = int64Max := Nat.div_add_mod' int64Max max
  have hone : 1 * max ≤ int64Max / max * max := Nat.mul_le_mul_right _ (Nat.div_pos hle hpos)
  have hmax : int64Max = 2 ^ 63 - 1 := rfl
  omega

theorem genrandLoop_of_lt {bound t : ℕ} (h : t < bound) (fuel : ℕ) :
    genrandLoop bound max fuel t s = .ok (t % max, s) := by
  cases fuel <;> rw [genrandLoop, if_pos h]

theorem genrand_of_draw {r : UInt32} {s' : State} (hr : genRand32 s = .ok (r, s')) (fuel : ℕ) : genrand fuel max s =
    if max = 0 then .error .divZero else genrandLoop (int64Max / max * max) max fuel r.toNat s' := by
  rw [genrand, hr, bind_ok]

theorem Drawn.genrand (h : Drawn w k s) (hpos : 0 < max) (hle : max ≤ int64Max) (fuel : ℕ) :
    ∃ s', Sfmt.genRand32 s = .ok (word w (n32 + k), s') ∧
      Sfmt.genrand fuel max s = .ok ((word w (n32 + k)).toNat % max, s') ∧ Drawn w (k + 1) s' := by
  obtain ⟨s', hs', hdrawn⟩ := h.genRand32
  refine ⟨s', hs', ?_, hdrawn⟩
  rw [genrand_of_draw hs', if_neg hpos.ne', genrandLoop_of_lt (toNat_lt_bound hpos hle _)]

theorem Drawn.genrands (h : Drawn w k s) (hmaxs : ∀ max ∈ maxs, 0 < max ∧ max ≤ int64Max) (fuel : ℕ) :
    ∃ s', Sfmt.draws s maxs.length = .ok (window (word w) (n32 + k) maxs.length, s') ∧
      Sfmt.genrands fuel s maxs =
        .ok (List.zipWith (fun x max => x.toNat % max) (window (word w) (n32 + k) maxs.length) maxs, s') ∧
      Drawn w (k + maxs.length) s' := by
  induction maxs using List.reverseRecOn with
  | nil => exact ⟨s, rfl, rfl, h⟩
  | append_singleton maxs max ih =>
    obtain ⟨t, hdraws, hvals, hdrawn⟩ := ih fun m hm => hmaxs m (List.mem_append_left _ hm)
    obtain ⟨hpos, hle⟩ := hmaxs max (by simp)
    obtain ⟨s', hraw, hval, hdrawn'⟩ := hdrawn.genrand hpos hle fuel
    refine ⟨s', ?_, ?_, by rwa [List.length_append, List.length_singleton, ← Nat.add_assoc]⟩
    · rw [Sfmt.draws, Sfmt.runCalls] at hdraws ⊢
      rw [List.length_append, List.length_singleton, List.replicate_succ', List.foldlM_append, hdraws, bind_ok,
        List.foldlM_cons, call, hraw, bind_ok, bind_ok, window_append, Nat.add_assoc]
      rfl
    · rw [Sfmt.genrands] at hvals ⊢
      rw [List.foldlM_append, hvals, bind_ok, List.foldlM_cons, hval, bind_ok, List.length_append,
        List.length_singleton, window_append, List.zipWith_append (length_window _ _ _), Nat.add_assoc]
      rfl

/-- The calls on a list of numbers of 32 bits that starts with what is drawn. -/
theorem genrandsOf_eq (hmaxs : ∀ max ∈ maxs, 0 < max ∧ max ≤ int64Max) :
    ∀ {ws : List UInt32} (rest : List ℕ), ws.length = maxs.length →
      genrandsOf (ws.map UInt32.toNat ++ rest) maxs = .ok (List.zipWith (fun x max => x.toNat % max) ws maxs, rest) := by
  induction maxs using List.reverseRecOn with
  | nil =>
    intro ws rest hlen
    rw [List.length_eq_zero_iff.mp hlen]
    rfl
  | append_singleton maxs max ih =>
    intro ws rest hlen
    obtain ⟨ws, x, rfl⟩ := List.eq_nil_or_concat ws |>.resolve_left fun hnil => by simp [hnil] at hlen
    have hlen' : ws.length = maxs.length := by simpa using hlen
    obtain ⟨hpos, hle⟩ := hmaxs max (by simp)
    have hfirst := ih (fun m hm => hmaxs m (List.mem_append_left _ hm)) (x.toNat :: rest) hlen'
    rw [genrandsOf] at hfirst ⊢
    rw [List.concat_eq_append, List.map_append, List.append_assoc, List.foldlM_append]
    have hcons : List.map UInt32.toNat [x] ++ rest = x.toNat :: rest := rfl
    rw [hcons, hfirst, bind_ok, List.foldlM_cons, genrand_first hpos hle, bind_ok, u32_of_lt x.toNat_lt,
      List.zipWith_append hlen']
    rfl

/-- **`genrand` takes one number and no more.**  In any run of calls, each with a range between one and `INT64_MAX`,
every call gets the next 32-bit number modulo its range; the rejection loop is never entered, no assertion fails, and
the generator is left as by as many single draws.  The calls on the list of those numbers give the same, so nothing is
lost where the generator is taken as a list of what it draws. -/
theorem genrand_run (hs : Reached s) (hinit : s.initialized = true)
    (hmaxs : ∀ max ∈ maxs, 0 < max ∧ max ≤ int64Max) :
    ∃ ws s', draws s maxs.length = .ok (ws, s') ∧ ws.length = maxs.length ∧
      (∀ fuel, genrands fuel s maxs = .ok (List.zipWith (fun x max => x.toNat % max) ws maxs, s')) ∧
      ∀ rest, genrandsOf (ws.map UInt32.toNat ++ rest) maxs =
        .ok (List.zipWith (fun x max => x.toNat % max) ws maxs, rest) := by
  obtain ⟨w, k, hdrawn, -⟩ := hs.known.started hinit
  obtain ⟨s', hdraws, -, -⟩ := hdrawn.genrands hmaxs 0
  refine ⟨_, s', hdraws, length_window _ _ _, fun fuel => ?_, fun rest => genrandsOf_eq hmaxs rest (length_window _ _ _)⟩
  obtain ⟨t, hdraws', hvals, -⟩ := hdrawn.genrands hmaxs fuel
  rw [hdraws] at hdraws'
  cases hdraws'
  exact hvals

theorem genrand_run_seeded : ∃ s, initGenRand .start 42 = .ok s ∧ ∃ ws s', draws s 3 = .ok (ws, s') ∧
    genrands 0 s [1, 65535, int64Max] =
      .ok (List.zipWith (fun x max => x.toNat % max) ws [1, 65535, int64Max], s') := by
  obtain ⟨s, hs, hreached, hinit, -⟩ := exists_seeded 42
  obtain ⟨ws, s', hdraws, -, hvals, -⟩ := genrand_run hreached hinit
    (show ∀ max ∈ [1, 65535, int64Max], 0 < max ∧ max ≤ int64Max by decide)
  exact ⟨s, hs, ws, s', hdraws, hvals 0⟩

/-- The loop goes on as long as it may, where nothing is in range. -/
theorem Drawn.genrandLoop_diverges (h : Drawn w k s) (heven : k % 2 = 0) (fuel t : ℕ) :
    genrandLoop 0 max fuel t s = .error .diverges := by
  induction fuel generalizing k s t with
  | zero => rw [genrandLoop, if_neg (Nat.not_lt_zero t)]
  | succ fuel ih =>
    obtain ⟨s', hs', hdrawn⟩ := h.genRand64 heven
    rw [genrandLoop, if_neg (Nat.not_lt_zero t), hs', bind_ok]
    exact ih hdrawn (by omega) _

/-- **When `genrand` returns**: exactly for a range between one and `INT64_MAX`.  For a wider one it ends the program
on the assertion of `gen_rand64` or goes round its loop for ever, by turns: the assertion asks for an even position,
and the first draw has moved the position on. -/
theorem genrand_returns_iff (hs : Reached s) (hinit : s.initialized = true) (max : ℕ) :
    ((∃ fuel x, genrand fuel max s = .ok x) ↔ 0 < max ∧ max ≤ int64Max) ∧
    (int64Max < max → s.idx % 2 = 0 → ∀ fuel, genrand (fuel + 1) max s = .error .exit) ∧
    (int64Max < max → s.idx % 2 = 1 → ∀ fuel, genrand fuel max s = .error .diverges) := by
  obtain ⟨w, k, hdrawn, -⟩ := hs.known.started hinit
  obtain ⟨s', hs', hdrawn'⟩ := hdrawn.genRand32
  have hidx := hdrawn.idx_mod
  have hwide : int64Max < max → ∀ fuel, genrand fuel max s = genrandLoop 0 max fuel (word w (n32 + k)).toNat s' := by
    intro hlt fuel
    rw [genrand_of_draw hs', if_neg (by omega), Nat.div_eq_of_lt hlt, Nat.zero_mul]
  have hexit : int64Max < max → s.idx % 2 = 0 → ∀ fuel, genrand (fuel + 1) max s = .error .exit := by
    intro hlt heven fuel
    rw [hwide hlt, genrandLoop, if_neg (Nat.not_lt_zero _), hdrawn'.genRand64_odd (by omega), bind_error]
  have hloop : int64Max < max → s.idx % 2 = 1 → ∀ fuel, genrand fuel max s = .error .diverges := by
    intro hlt hodd fuel
    rw [hwide hlt]
    exact hdrawn'.genrandLoop_diverges (by omega) fuel _
  refine ⟨⟨fun ⟨fuel, x, hx⟩ => ?_, fun ⟨hpos, hle⟩ => ?_⟩, hexit, hloop⟩
  · by_contra hcon
    rcases Nat.eq_zero_or_pos max with rfl | hpos
    · rw [genrand_of_draw hs', if_pos rfl] at hx
      cases hx
    · have hlt : int64Max < max := by omega
      rcases Nat.mod_two_eq_zero_or_one s.idx with heven | hodd
      · rcases fuel with _ | fuel
        · rw [hwide hlt, genrandLoop, if_neg (Nat.not_lt_zero _)] at hx
          cases hx
        · rw [hexit hlt heven] at hx
          cases hx
      · rw [hloop hlt hodd] at hx
        cases hx
  · obtain ⟨t, -, ht, -⟩ := hdrawn.genrand hpos hle 0
    exact ⟨0, _, ht⟩

theorem genrand_returns_iff_seeded : ∃ s, initGenRand .start 42 = .ok s ∧ (∃ fuel x, genrand fuel 65535 s = .ok x) ∧
    (s.idx % 2 = 0 → genrand 1 (2 ^ 63) s = .error .exit) := by
  obtain ⟨s, hs, hreached, hinit, -⟩ := exists_seeded 42
  exact ⟨s, hs, (genrand_returns_iff hreached hinit 65535).1.mpr (by decide),
    fun heven => (genrand_returns_iff hreached hinit (2 ^ 63)).2.1 (by decide) heven 0⟩

end Genrand

/-! ### The numbers of a process -/

/-- **No two processes draw the same.**  `init_io` seeds each process with the seed and its number, and `populate` with
the seed and the number of all; the first `n32` numbers, and any more, are the same only for one and the same process,
whatever the generator was used for before. -/
theorem processes_draw_apart {r r' t t' : State} {seed nprocs p p' m : ℕ} (hr : Reached r) (hr' : Reached r')
    (hn : nprocs < 2 ^ 32) (hp : p ≤ nprocs) (hp' : p' ≤ nprocs) (ht : initRand r (u64 (seed + p)) = .ok t)
    (ht' : initRand r' (u64 (seed + p')) = .ok t') (hm : n32 ≤ m) :
    (draws t m).map Prod.fst = (draws t' m).map Prod.fst ↔ p = p' := by
  rw [(draws_eq_iff hr hr' ht ht' hm).1]
  refine ⟨fun hseed => ?_, fun h => by rw [h]⟩
  have hnat := congrArg UInt32.toNat hseed
  rw [UInt32.toNat_ofNat', UInt32.toNat_ofNat', u64, u64] at hnat
  omega

theorem processes_draw_apart_four : ∃ t t', initRand .start (u64 (2 ^ 32 + 0)) = .ok t ∧
    initRand .start (u64 (2 ^ 32 + 3)) = .ok t' ∧ (draws t n32).map Prod.fst ≠ (draws t' n32).map Prod.fst := by
  obtain ⟨t, ht, -⟩ := exists_seeded (UInt32.ofNat (u64 (2 ^ 32 + 0)))
  obtain ⟨t', ht', -⟩ := exists_seeded (UInt32.ofNat (u64 (2 ^ 32 + 3)))
  exact ⟨t, t', ht, ht', fun h => absurd ((processes_draw_apart .start .start (show 4 < 2 ^ 32 by decide)
    (by decide) (by decide) ht ht' le_rfl).mp h) (by decide)⟩

/-- What `m` single draws after `init_rand` give, where the generator was at `r` before. -/
def numbers (r : State) (m seed : ℕ) : List ℕ :=
  match initRand r seed with
  | .error _ => []
  | .ok s => match draws s m with
    | .error _ => []
    | .ok (out, _) => out.map UInt32.toNat

/-- `SFMT` as it is, for processes that draw at most `m` numbers. -/
def engines (r : State) (m : ℕ) (mt19937 : ℕ → ℕ → Generator.Draw) : Engines := ⟨numbers r m, mt19937⟩

/-- The numbers that the generator hands out from here on, one at each call of `gen_rand32`. -/
def State.numbers (s : State) (j : ℕ) : ℕ := (word s.seq (s.idx + j)).toNat

/-- The numbers from the `i`-th on, where there are `m`. -/
def numbersFrom (x : ℕ → ℕ) (m i : ℕ) : List ℕ := (List.range' i (m - i)).map x

theorem numbersFrom_eq_cons {x : ℕ → ℕ} {m i : ℕ} (h : i < m) : numbersFrom x m i = x i :: numbersFrom x m (i + 1) := by
  rw [numbersFrom, show m - i = m - (i + 1) + 1 by omega, List.range'_succ, List.map_cons, numbersFrom]

/-- The generator after `init_rand`, and what it draws from there. -/
theorem initRand_engines {r : State} (hr : Reached r) (m : ℕ) (mt19937 : ℕ → ℕ → Generator.Draw) (seed : ℕ) :
    ∃ s, initRand r (u64 seed) = .ok s ∧
      (engines r m mt19937).initRand (u64 seed) = numbersFrom s.numbers m 0 := by
  obtain ⟨sfmt, hspec, hlen, -⟩ := initGenRand_spec hr.known.length (UInt32.ofNat (u64 seed))
  have hcut : UInt32.ofNat (u32 (u64 seed)) = UInt32.ofNat (u64 seed) := by
    rw [u32, UInt32.ofNat_mod_size]
  obtain ⟨t, ht, -⟩ := (drawn_of_init hlen).draws m
  refine ⟨_, hspec, ?_⟩
  show numbers r m (u32 (u64 seed)) = _
  simp only [numbers, initRand, hcut, hspec, ht]
  rw [numbersFrom, window, List.map_map, ← List.range_eq_range', Nat.sub_zero]
  rfl

end Sfmt

/-! ### The offsets of a process -/

open ExceptRun Sfmt

/-- How many numbers a process has drawn before its `k`-th operation. -/
def Conf.drawn (conf : Conf) (k : ℕ) : ℕ :=
  match conf.accesstype with
  | .sequential => 0
  | .uniform => k
  | .tpcc => 1 + 2 * k

/-- `c_nurand`, where the numbers drawn are `x`. -/
def Conf.constantOf (conf : Conf) (x : ℕ → ℕ) : ℕ :=
  if conf.accesstype = .tpcc then x 0 % (conf.aNurand + 1) else 0

/-- The block of the `k`-th operation in the region of the process, where the numbers drawn are `x`. -/
def Conf.blockOf (conf : Conf) (x : ℕ → ℕ) (k : ℕ) : ℕ :=
  match conf.accesstype with
  | .sequential => k % conf.region
  | .uniform => x k % (conf.region - 1)
  | .tpcc => ((x (1 + 2 * k) % conf.aNurand ||| x (2 + 2 * k) % (conf.region - 1)) + conf.constantOf x) % conf.region

section Offsets

variable {conf : Conf} {x : ℕ → ℕ} {m k : ℕ}

theorem initIoposition_numbers (hbs : 4096 ≤ conf.blockSize) (hx : ∀ j, x j < 2 ^ 32) (hm : conf.drawn 0 ≤ m) :
    initIoposition conf (numbersFrom x m 0) = .ok (conf.constantOf x, numbersFrom x m (conf.drawn 0)) := by
  have h52 := Conf.totblocks_le hbs
  unfold initIoposition Conf.constantOf Conf.drawn at *
  cases hacc : conf.accesstype with
  | sequential => rfl
  | uniform => rfl
  | tpcc =>
    rw [hacc] at hm
    have hm : 1 ≤ m := hm
    rw [if_pos rfl, if_pos rfl, numbersFrom_eq_cons (by omega), genrand_eq (Nat.succ_pos _) (by unfold Conf.aNurand; omega),
      u32_of_lt (hx 0)]

theorem positionIn_numbers (hbs : 4096 ≤ conf.blockSize) (h : conf.Enough) (hx : ∀ j, x j < 2 ^ 32)
    (hm : conf.drawn (k + 1) ≤ m) :
    conf.positionIn conf.region k (conf.constantOf x) (numbersFrom x m (conf.drawn k)) =
        .ok (conf.blockOf x k * conf.blockSize, numbersFrom x m (conf.drawn (k + 1))) ∧
      conf.blockOf x k < conf.region := by
  have h52 := Conf.totblocks_le hbs
  have hle := conf.region_le
  unfold Conf.Enough at h
  unfold Conf.positionIn Conf.blockOf Conf.drawn at *
  cases hacc : conf.accesstype with
  | sequential =>
    rw [hacc] at h
    have hlt := Nat.mod_lt k h
    refine ⟨?_, hlt⟩
    simp only [getIopositionSeq, if_neg (show conf.region ≠ 0 by omega), bind_ok]
    rw [u64_of_lt (conf.offset_lt (by omega))]
  | uniform =>
    rw [hacc] at h hm
    have h : 2 ≤ conf.region := h
    have hm : k + 1 ≤ m := hm
    have hlt := Nat.mod_lt (x k) (show 0 < conf.region - 1 by omega)
    refine ⟨?_, by dsimp only; omega⟩
    dsimp only
    rw [getIopositionUniform, u64_pred (by omega) (by omega), numbersFrom_eq_cons (by omega),
      genrand_eq (by omega) (by omega), bind_ok, u32_of_lt (hx k)]
    dsimp only
    rw [u64_of_lt (conf.offset_lt (by omega))]
  | tpcc =>
    rw [hacc] at h hm
    obtain ⟨h10, h2⟩ := h
    have hm : 1 + 2 * (k + 1) ≤ m := hm
    have ha : 0 < conf.aNurand ∧ conf.aNurand < 2 ^ 52 := by unfold Conf.aNurand; omega
    have hor := Nat.or_lt_two_pow ((Nat.mod_lt (x (1 + 2 * k)) ha.1).trans ha.2)
      ((Nat.mod_lt (x (2 + 2 * k)) (show 0 < conf.region - 1 by omega)).trans (show conf.region - 1 < 2 ^ 52 by omega))
    have hc : conf.constantOf x < 2 ^ 52 + 1 := by
      have hmod := Nat.mod_lt (x 0) (show 0 < conf.aNurand + 1 by omega)
      rw [Conf.constantOf, if_pos hacc]
      omega
    refine ⟨?_, Nat.mod_lt _ (by omega)⟩
    have hblock := Nat.mod_lt ((x (1 + 2 * k) % conf.aNurand ||| x (2 + 2 * k) % (conf.region - 1)) + conf.constantOf x)
      (show 0 < conf.region by omega)
    have hrange : u64 (conf.region - 1 - 0 + 1) = conf.region := by
      rw [Nat.sub_zero, Nat.sub_add_cancel (by omega)]
      exact u64_of_lt (by omega)
    simp only [getIopositionTpcc, u64_pred (show 0 < conf.region by omega) (show conf.region < 2 ^ 64 by omega),
      numbersFrom_eq_cons (show 1 + 2 * k < m by omega), numbersFrom_eq_cons (show 1 + 2 * k + 1 < m by omega),
      genrand_eq ha.1 ha.2.le, genrand_eq (show 0 < conf.region - 1 by omega) (show conf.region - 1 ≤ 2 ^ 52 by omega),
      bind_ok, u32_of_lt (hx _), hrange, if_neg (show conf.region ≠ 0 by omega), Nat.add_zero]
    rw [show 1 + 2 * k + 1 = 2 + 2 * k by omega, u64_of_lt (n := _ + conf.constantOf x) (by omega),
      show 2 + 2 * k + 1 = 1 + 2 * (k + 1) by omega, u64_of_lt (conf.offset_lt (by omega))]

/-- **The `k`-th operation of a process**, where what it draws is `x`. -/
theorem getIoposition_numbers {idproc : ℕ} (hbs : 4096 ≤ conf.blockSize) (h : conf.Enough) (hid : idproc < conf.nprocs)
    (hx : ∀ j, x j < 2 ^ 32) (hm : conf.drawn (k + 1) ≤ m) :
    getIoposition conf k (conf.constantOf x) idproc (numbersFrom x m (conf.drawn k)) =
      .ok ((conf.regionStart idproc + conf.blockOf x k) * conf.blockSize, numbersFrom x m (conf.drawn (k + 1))) := by
  obtain ⟨hpos, hlt⟩ := positionIn_numbers hbs h hx hm
  rw [getIoposition, Conf.regionBlocks_eq (by omega), bind_ok, hpos, bind_ok]
  exact Conf.regionStart_add hid hlt

theorem Conf.drawn_mono {i j : ℕ} (h : i ≤ j) : conf.drawn i ≤ conf.drawn j := by
  unfold Conf.drawn
  cases conf.accesstype <;> dsimp only <;> omega

theorem firstOffsets_numbers {idproc : ℕ} (hbs : 4096 ≤ conf.blockSize) (h : conf.Enough) (hid : idproc < conf.nprocs)
    (hx : ∀ j, x j < 2 ^ 32) (hm : conf.drawn k ≤ m) :
    firstOffsets conf idproc (conf.constantOf x) (numbersFrom x m (conf.drawn 0)) k =
      .ok ((List.range k).map fun i => (conf.regionStart idproc + conf.blockOf x i) * conf.blockSize,
        numbersFrom x m (conf.drawn k)) := by
  induction k with
  | zero => rfl
  | succ k ih =>
    refine firstOffsets_succ.mpr ⟨_, _, _, ih ((Conf.drawn_mono (Nat.le_succ k)).trans hm),
      getIoposition_numbers hbs h hid hx hm, ?_⟩
    rw [List.range_succ, List.map_append]
    rfl

/-- **The offsets of a process are known from its seed.**  With enough blocks for its access type, a process draws its
constant and then a fixed number of times for each operation, and the `k`-th operation goes to a block that depends on
those numbers alone, in closed form; and that is where the operations of every process go in every peak test that ends
by size. -/
theorem process_offsets {r : State} {mt19937 : ℕ → ℕ → Generator.Draw} {seed m : ℕ} (hr : Reached r)
    (hbs : 4096 ≤ conf.blockSize) (h : conf.Enough) (procid : ℕ) (hm : conf.drawn 0 ≤ m) :
    ∃ s, initRand r (u64 (seed + procid)) = .ok s ∧
      (∃ raws, initIo (engines r m mt19937) conf seed procid = .ok (conf.constantOf s.numbers, raws) ∧
        ∀ idproc < conf.nprocs, ∀ k, conf.drawn k ≤ m →
          ∃ rest, firstOffsets conf idproc (conf.constantOf s.numbers) raws k = .ok
            ((List.range k).map fun i => (conf.regionStart idproc + conf.blockOf s.numbers i) * conf.blockSize, rest)) ∧
      ∀ {run : RunConf} {file : Option (List Char)} {iotype : IoType} {idproc : ℕ} {o : Outside} {p : Process},
        run.SizePeak → idproc < conf.nprocs → procid = conf.procidR iotype idproc →
        conf.drawn (run.numberOps / run.nproc) ≤ m →
        Reaches (engines r m mt19937) conf run seed file iotype idproc o p →
        p.requests.map Request.offset = (List.range p.requests.length).map fun i =>
          (conf.regionStart idproc + conf.blockOf s.numbers i) * conf.blockSize := by
  obtain ⟨s, hs, hnumbers⟩ := initRand_engines hr m mt19937 (seed + procid)
  have hx : ∀ j, s.numbers j < 2 ^ 32 := fun j => UInt32.toNat_lt _
  have hio : initIo (engines r m mt19937) conf seed procid =
      .ok (conf.constantOf s.numbers, numbersFrom s.numbers m (conf.drawn 0)) := by
    rw [initIo, hnumbers]
    exact initIoposition_numbers hbs hx hm
  refine ⟨s, hs, ⟨_, hio, fun idproc hid k hk => ⟨_, firstOffsets_numbers hbs h hid hx hk⟩⟩, ?_⟩
  rintro run file iotype idproc o p hrun hid rfl hshare hreach
  obtain ⟨g₀, info, c, raws, -, hio', hinv⟩ := processInv_of_reaches hrun hreach
  obtain ⟨rfl, rfl⟩ := Prod.mk.inj (Except.ok.inj (hio.symm.trans hio'))
  have hoffsets := firstOffsets_numbers hbs h hid hx ((Conf.drawn_mono hinv.loop.le).trans hshare)
  exact (Prod.mk.inj (Except.ok.inj (hinv.offsets.symm.trans hoffsets))).1

theorem process_offsets_twoRegions : ∃ s, initRand .start (u64 (42 + 1)) = .ok s ∧
    ∃ c raws rest, initIo (engines .start 100 fun _ _ => ⟨0, 0, 0⟩) twoRegions 42 1 = .ok (c, raws) ∧
      firstOffsets twoRegions 1 c raws 3 = .ok ((List.range 3).map fun i =>
        (10 + twoRegions.blockOf s.numbers i) * 4096, rest) := by
  obtain ⟨s, hs, ⟨raws, hio, hoffsets⟩, -⟩ := @process_offsets twoRegions .start (fun _ _ => ⟨0, 0, 0⟩) 42 100 .start
    (by decide) (show 10 ≤ twoRegions.totblocks ∧ 2 ≤ twoRegions.region by decide) 1 (by decide)
  obtain ⟨rest, h⟩ := hoffsets 1 (by decide) 3 (by decide)
  exact ⟨s, hs, _, raws, rest, hio, h⟩

end Offsets

end Dedisbench
