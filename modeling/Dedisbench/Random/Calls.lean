import Dedisbench.Random.Seeding

/-!
# Runs of the generator

The program initializes the generator and then calls it, in any order.  Whatever it calls, the generator hands out the
words that follow from those in its state, each once and in order, and it ends the program exactly on the calls that its
assertions forbid (`calls_in_order`).  The array functions hand out what as many single calls would have
(`calls_eq_draws`).  No state repeats a dead end: the state never becomes zero, and the words come back to where they
started (`never_stuck`).  Two seeds give the same words only if they are the same number modulo `2 ^ 32`
(`draws_eq_iff`).
-/

namespace Dedisbench

namespace Sfmt

open Lagged ExceptRun

/-! ### Calls -/

/-- A call of the generator; an array is given with what it holds. -/
inductive Call where
  | genRand32
  | genRand64
  | fillArray32 (array : List W128) (size : ℤ)
  | fillArray64 (array : List W128) (size : ℤ)

/-- What a call hands out, as words of 32 bits in the order in which they are in memory, and the state after it. -/
def call (s : State) : Call → Exec (List UInt32 × State)
  | .genRand32 => do
    let (r, s) ← genRand32 s
    .ok ([r], s)
  | .genRand64 => do
    let (r, s) ← genRand64 s
    .ok ([r.toUInt32, (r >>> 32).toUInt32], s)
  | .fillArray32 array size => do
    let (array, s) ← fillArray32 s array size
    .ok ((words array).take size.toNat, s)
  | .fillArray64 array size => do
    let (array, s) ← fillArray64 s array size
    .ok ((words array).take (2 * size.toNat), s)

/-- Calls one after the other: all that they hand out, and the state in the end. -/
def runCalls (s : State) (cs : List Call) : Exec (List UInt32 × State) :=
  cs.foldlM (fun x c => do
    let (out, s) ← call x.2 c
    .ok (x.1 ++ out, s)) ([], s)

/-- The array of a call has room for the numbers it asks for. -/
def Call.Fits : Call → Prop
  | .genRand32 => True
  | .genRand64 => True
  | .fillArray32 array size => (size / 4).toNat ≤ array.length
  | .fillArray64 array size => (size / 2).toNat ≤ array.length

/-- The states that the generator gets to, where the arrays it is given have room. -/
inductive Reached : State → Prop
  | start : Reached .start
  | initGenRand {s s' : State} (seed : UInt32) (h : Reached s) (hs : initGenRand s seed = .ok s') : Reached s'
  | initByArray {s' : State} (initKey : InitKey) (hs : initByArray initKey = .ok s') : Reached s'
  | call {s s' : State} {c : Call} {out : List UInt32} (h : Reached s) (hfits : c.Fits)
      (hc : call s c = .ok (out, s')) : Reached s'

/-- How many words a call hands out. -/
def Call.count : Call → ℕ
  | .genRand32 => 1
  | .genRand64 => 2
  | .fillArray32 _ size => size.toNat
  | .fillArray64 _ size => 2 * size.toNat

/-- The sequence that the words of the state start. -/
def State.seq (s : State) : ℕ → W128 := recurrence.extend fun i => s.sfmt.getD i ⟨0, 0, 0, 0⟩

/-- What the assertions ask of a call. -/
def Call.Allowed (s : State) : Call → Prop
  | .genRand32 => True
  | .genRand64 => s.idx % 2 = 0
  | .fillArray32 _ size => s.idx = n32 ∧ size % 4 = 0 ∧ n32 ≤ size
  | .fillArray64 _ size => s.idx = n32 ∧ size % 2 = 0 ∧ n64 ≤ size

section Run

variable {w w' : ℕ → W128} {k : ℕ} {s s' : State} {c : Call} {cs : List Call} {out : List UInt32} {f : Fault}

theorem toUInt32_join (hi lo : UInt32) : (join hi lo).toUInt32 = lo ∧ (join hi lo >>> 32).toUInt32 = hi :=
  (join_inj (join_halves (join hi lo))).symm

/-- **A call hands out the next words**, if the assertions allow it. -/
theorem Drawn.call_ok (h : Drawn w k s) (hfits : c.Fits) (hc : c.Allowed s) :
    ∃ s', call s c = .ok (window (word w) (n32 + k) c.count, s') ∧ Drawn w (k + c.count) s' := by
  cases c with
  | genRand32 =>
    obtain ⟨s', hs', hdrawn⟩ := h.genRand32
    exact ⟨s', by rw [call, hs', bind_ok]; rfl, hdrawn⟩
  | genRand64 =>
    obtain ⟨s', hs', hdrawn⟩ := h.genRand64 (h.idx_mod ▸ hc)
    refine ⟨s', ?_, hdrawn⟩
    rw [call, hs', bind_ok]
    simp only [(toUInt32_join _ _).1, (toUInt32_join _ _).2]
    rfl
  | fillArray32 array size =>
    obtain ⟨hidx, hmod, hsize⟩ := hc
    obtain ⟨a, s', hs', hwords, hdrawn⟩ := h.fillArray (p := 4) (l := n32) (by decide) rfl hidx hmod hsize hfits
    have hlen : 4 * (size / 4).toNat = size.toNat := by omega
    rw [Nat.cast_ofNat, hlen] at hwords hdrawn
    exact ⟨s', by simp only [call, fillArray32, hs', bind_ok, hwords, Call.count], hdrawn⟩
  | fillArray64 array size =>
    obtain ⟨hidx, hmod, hsize⟩ := hc
    obtain ⟨a, s', hs', hwords, hdrawn⟩ := h.fillArray (p := 2) (l := n64) (by decide) rfl hidx hmod hsize hfits
    have hlen : 4 * (size / 2).toNat = 2 * size.toNat := by omega
    rw [Nat.cast_ofNat, hlen] at hwords hdrawn
    exact ⟨s', by simp only [call, fillArray64, hs', bind_ok, hwords, Call.count], hdrawn⟩

/-- If they do not, it ends the program. -/
theorem call_exit (hc : ¬ c.Allowed s) : call s c = .error .exit := by
  cases c with
  | genRand32 => exact absurd trivial hc
  | genRand64 =>
    have hodd : s.idx % 2 ≠ 0 := hc
    rw [call, genRand64, if_pos (.inr hodd), bind_error]
  | fillArray32 array size =>
    rw [call, fillArray32, fillArray, if_pos, bind_error]
    by_contra hall
    simp only [not_or, not_not, not_lt, Nat.cast_ofNat] at hall
    exact hc hall.2
  | fillArray64 array size =>
    rw [call, fillArray64, fillArray, if_pos, bind_error]
    by_contra hall
    simp only [not_or, not_not, not_lt, Nat.cast_ofNat] at hall
    exact hc hall.2

/-- What a call makes of a state that has handed out `k` words. -/
theorem Drawn.call_cases (h : Drawn w k s) (hfits : c.Fits) :
    (c.Allowed s ∧ ∃ s', call s c = .ok (window (word w) (n32 + k) c.count, s') ∧ Drawn w (k + c.count) s') ∨
      (¬ c.Allowed s ∧ call s c = .error .exit) := by
  by_cases hc : c.Allowed s
  · exact .inl ⟨hc, h.call_ok hfits hc⟩
  · exact .inr ⟨hc, call_exit hc⟩

theorem runCalls_append {out' : List UInt32} {t : State} (h : runCalls s cs = .ok (out, t))
    (hc : call t c = .ok (out', s')) : runCalls s (cs ++ [c]) = .ok (out ++ out', s') := by
  rw [runCalls] at h ⊢
  rw [List.foldlM_append, h, bind_ok, List.foldlM_cons, hc, bind_ok]
  rfl

/-- **A run of calls hands out the next words**, or ends the program. -/
theorem Drawn.runCalls (h : Drawn w k s) (hfits : ∀ c ∈ cs, c.Fits) :
    (∃ out s', runCalls s cs = .ok (out, s') ∧ out = window (word w) (n32 + k) out.length ∧
      Drawn w (k + out.length) s') ∨ runCalls s cs = .error .exit := by
  induction cs using List.reverseRecOn with
  | nil => exact .inl ⟨[], s, rfl, rfl, h⟩
  | append_singleton cs c ih =>
    rcases ih fun c hc => hfits c (List.mem_append_left _ hc) with ⟨out, t, ht, hout, hdrawn⟩ | hexit
    · rcases hdrawn.call_cases (hfits c (by simp)) with ⟨-, s', hs', hdrawn'⟩ | ⟨-, hexit⟩
      · refine .inl ⟨_, s', runCalls_append ht hs', ?_, ?_⟩
        · rw [List.length_append, length_window, window_append, ← hout, Nat.add_assoc]
        · rwa [List.length_append, length_window, ← Nat.add_assoc]
      · refine .inr ?_
        rw [Sfmt.runCalls] at ht ⊢
        rw [List.foldlM_append, ht, bind_ok, List.foldlM_cons, hexit, bind_error, bind_error]
    · refine .inr ?_
      rw [Sfmt.runCalls] at hexit ⊢
      rw [List.foldlM_append, hexit, bind_error]

/-! ### The states of a run -/

/-- The state that an initialization leaves has handed out nothing. -/
theorem drawn_of_init {sfmt : List W128} (hlen : sfmt.length = n) :
    Drawn (State.seq ⟨sfmt, n32, true⟩) 0 ⟨sfmt, n32, true⟩ := by
  refine ⟨Recurrence.follows_extend _, rfl, ⟨0, eq_window hlen fun j hj => ?_, ?_⟩, le_rfl⟩
  · have hj' : j < sfmt.length := hlen ▸ hj
    rw [Nat.zero_add, State.seq, Recurrence.extend_of_lt hj, List.getD_eq_getElem?_getD, List.getElem?_eq_getElem hj',
      Option.getD_some]
  · rw [Nat.mul_zero]

/-- What is known of a state that the generator gets to. -/
structure Reached.Known (s : State) : Prop where
  length : s.sfmt.length = n
  started : s.initialized = true →
    ∃ w k, Drawn w k s ∧ innerProduct (window w 0 n) = some true

theorem Reached.known (h : Reached s) : Reached.Known s := by
  have hinit : ∀ {sfmt : List W128}, sfmt.length = n → innerProduct sfmt = some true →
      Reached.Known ⟨sfmt, n32, true⟩ := by
    intro sfmt hlen hinner
    have hdrawn := drawn_of_init hlen
    refine ⟨hlen, fun _ => ⟨_, 0, hdrawn, ?_⟩⟩
    obtain ⟨base, hsfmt, hk⟩ := hdrawn.sfmt
    obtain rfl : base = 0 := by dsimp only at hk; omega
    rwa [← hsfmt]
  induction h with
  | start => exact ⟨List.length_replicate, fun h => absurd h (by decide)⟩
  | initGenRand seed h hs ih =>
    obtain ⟨sfmt, hspec, hlen, hinner, -⟩ := initGenRand_spec ih.length seed
    rw [hspec] at hs
    cases hs
    exact hinit hlen hinner
  | initByArray initKey hs =>
    obtain ⟨sfmt, hspec, hlen, hinner⟩ := initByArray_spec initKey
    rw [hspec] at hs
    cases hs
    exact hinit hlen hinner
  | @call s s' c out h hfits hc ih =>
    by_cases hs : s.initialized = true
    · obtain ⟨w, k, hdrawn, hinner⟩ := ih.started hs
      rcases hdrawn.call_cases hfits with ⟨-, t, ht, hdrawn'⟩ | ⟨-, hexit⟩
      · obtain ⟨-, rfl⟩ := Prod.mk.inj (Except.ok.inj (ht.symm.trans hc))
        obtain ⟨base, hsfmt, -⟩ := hdrawn'.sfmt
        exact ⟨by rw [hsfmt, length_window], fun _ => ⟨w, _, hdrawn', hinner⟩⟩
      · rw [hexit] at hc
        cases hc
    · -- before an initialization every call fails its first assertion
      have hexit : Sfmt.call s c = .error .exit := by
        have hfalse : s.initialized = false := by simpa using hs
        cases c with
        | genRand32 => rw [Sfmt.call, Sfmt.genRand32, if_pos hfalse, bind_error]
        | genRand64 => rw [Sfmt.call, Sfmt.genRand64, if_pos (.inl hfalse), bind_error]
        | fillArray32 array size => rw [Sfmt.call, fillArray32, fillArray, if_pos (.inl hfalse), bind_error]
        | fillArray64 array size => rw [Sfmt.call, fillArray64, fillArray, if_pos (.inl hfalse), bind_error]
      rw [hexit] at hc
      cases hc

/-- The words of a state are the first ones of its sequence, and what has been drawn so far does not matter for it. -/
theorem Drawn.seq (h : Drawn w k s) : ∃ base, s.seq = (fun i => w (base + i)) ∧ n32 + k = 4 * base + s.idx := by
  obtain ⟨base, hsfmt, hk⟩ := h.sfmt
  refine ⟨base, ?_, by omega⟩
  funext i
  have hwindow := Recurrence.Follows.eq_of_window (k := 0) (Recurrence.follows_extend (R := recurrence)
    fun i => s.sfmt.getD i ⟨0, 0, 0, 0⟩) (h.follows.shift base) (fun i hi => ?_) i
  · rwa [Nat.zero_add] at hwindow
  · have hi : i < n := hi
    rw [Nat.zero_add, Recurrence.extend_of_lt hi, hsfmt, List.getD_eq_getElem?_getD, getElem?_window w base hi,
      Option.getD_some]

theorem Drawn.window_eq (h : Drawn w k s) (len : ℕ) :
    window (word w) (n32 + k) len = window (word s.seq) s.idx len := by
  obtain ⟨base, hseq, hk⟩ := h.seq
  apply List.map_congr_left
  intro j _
  rw [hseq, hk, word, word, show (4 * base + s.idx + j) / 4 = base + (s.idx + j) / 4 by omega, W128.u, W128.u,
    Nat.add_assoc, Nat.mul_add_mod]

end Run

/-- The generator when the program has started and initialized it. -/
theorem exists_seeded (seed : UInt32) : ∃ s, initGenRand .start seed = .ok s ∧ Reached s ∧ s.initialized = true ∧
    s.idx = n32 ∧ Drawn s.seq 0 s := by
  obtain ⟨sfmt, hspec, hlen, -⟩ := initGenRand_spec Reached.start.known.length seed
  exact ⟨_, hspec, .initGenRand seed .start hspec, rfl, rfl, drawn_of_init hlen⟩

/-- An array of `n32` numbers, and three draws. -/
def sampleCalls : List Call := [.fillArray32 (List.replicate n ⟨0, 0, 0, 0⟩) n32, .genRand32, .genRand32, .genRand64]

theorem sampleCalls_fits : ∀ c ∈ sampleCalls, c.Fits := by
  have hroom : (Call.fillArray32 (List.replicate n ⟨0, 0, 0, 0⟩) n32).Fits := by
    rw [Call.Fits, List.length_replicate]
    decide
  simp only [sampleCalls, List.forall_mem_cons, List.not_mem_nil, false_implies, implies_true, and_true]
  exact ⟨hroom, trivial, trivial, trivial⟩

/-- The seeded generator serves them. -/
theorem exists_sampleCalls : ∃ s out s', initGenRand .start 42 = .ok s ∧ Reached s ∧ s.initialized = true ∧
    runCalls s sampleCalls = .ok (out, s') ∧ out.length = n32 + 4 := by
  obtain ⟨s, hs, hreached, hinit, hidx, hdrawn⟩ := exists_seeded 42
  obtain ⟨s₁, h₁, hdrawn⟩ := hdrawn.call_ok (sampleCalls_fits _ List.mem_cons_self) ⟨hidx, by decide, le_rfl⟩
  obtain ⟨s₂, h₂, hdrawn⟩ := hdrawn.call_ok (c := .genRand32) trivial trivial
  obtain ⟨s₃, h₃, hdrawn⟩ := hdrawn.call_ok (c := .genRand32) trivial trivial
  obtain ⟨s₄, h₄, -⟩ := hdrawn.call_ok (c := .genRand64) trivial hdrawn.idx_mod
  have h₀ : runCalls s [] = .ok ([], s) := rfl
  refine ⟨s, _, s₄, hs, hreached, hinit,
    runCalls_append (runCalls_append (runCalls_append (runCalls_append h₀ h₁) h₂) h₃) h₄, ?_⟩
  simp only [List.length_append, length_window]
  rfl

/-! ### What a run of calls hands out -/

variable {s s' : State}

/-- **The calls of a run hand out the words in their order.**  From any state that an initialized generator gets to, the
calls hand out the words that the recurrence makes of those in the state, from the one at `idx` on; each of them is
handed out once, none is left out, and nothing else is handed out.  A call that the assertions forbid ends the program,
and nothing else goes wrong. -/
theorem calls_in_order (hs : Reached s) (hinit : s.initialized = true) (cs : List Call) (hfits : ∀ c ∈ cs, c.Fits) :
    (∃ out s', runCalls s cs = .ok (out, s') ∧ out = window (word s.seq) s.idx out.length ∧ Reached s' ∧
      ∀ c : Call, c.Fits → ((∃ x, call s' c = .ok x) ↔ c.Allowed s')) ∨ runCalls s cs = .error .exit := by
  obtain ⟨w, k, hdrawn, -⟩ := hs.known.started hinit
  rcases hdrawn.runCalls hfits with ⟨out, s', hs', hout, hdrawn'⟩ | hexit
  · refine .inl ⟨out, s', hs', hout.trans (hdrawn.window_eq _), ?_, fun c hc => ?_⟩
    · clear hdrawn' hout
      rw [runCalls] at hs'
      have hreach := foldlM_inv (P := fun x : List UInt32 × State => Reached x.2)
        (fun x c x' hc hx h => ?_) (s := ([], s)) hs hs'
      · exact hreach
      · obtain ⟨⟨out, t⟩, ht, h⟩ := bind_eq_ok.mp h
        cases h
        exact hx.call (hfits c hc) ht
    · rcases hdrawn'.call_cases hc with ⟨hallowed, t, ht, -⟩ | ⟨hnot, hexit⟩
      · exact ⟨fun _ => hallowed, fun _ => ⟨_, ht⟩⟩
      · refine ⟨fun ⟨x, hx⟩ => ?_, fun h => absurd h hnot⟩
        rw [hexit] at hx
        cases hx
  · exact .inr hexit

theorem calls_in_order_seeded : ∃ s out s', initGenRand .start 42 = .ok s ∧
    runCalls s sampleCalls = .ok (out, s') ∧ out = window (word s.seq) s.idx (n32 + 4) ∧ Reached s' := by
  obtain ⟨s, out, s', hs, hreached, hinit, hrun, hlen⟩ := exists_sampleCalls
  rcases calls_in_order hreached hinit sampleCalls sampleCalls_fits with ⟨out', t, hrun', hout, ht, -⟩ | hexit
  · obtain ⟨rfl, rfl⟩ := Prod.mk.inj (Except.ok.inj (hrun.symm.trans hrun'))
    rw [hlen] at hout
    exact ⟨s, out, s', hs, hrun, hout, ht⟩
  · rw [hrun] at hexit
    cases hexit

/-! ### Single draws -/

/-- `m` calls of `gen_rand32`. -/
def draws (s : State) (m : ℕ) : Exec (List UInt32 × State) := runCalls s (List.replicate m .genRand32)

section Draws

variable {w w' : ℕ → W128} {k : ℕ} {cs : List Call} {out : List UInt32}

theorem Drawn.draws (h : Drawn w k s) (m : ℕ) :
    ∃ s', draws s m = .ok (window (word w) (n32 + k) m, s') ∧ Drawn w (k + m) s' := by
  induction m with
  | zero => exact ⟨s, rfl, h⟩
  | succ m ih =>
    obtain ⟨t, ht, hdrawn⟩ := ih
    obtain ⟨s', hs', hdrawn'⟩ := hdrawn.genRand32
    refine ⟨s', ?_, hdrawn'⟩
    rw [Sfmt.draws, Sfmt.runCalls] at ht ⊢
    rw [List.replicate_succ', List.foldlM_append, ht, bind_ok, List.foldlM_cons, call, hs', bind_ok, bind_ok,
      window_append, Nat.add_assoc]
    rfl

/-- **Single draws do as well.**  What any calls hand out, as many calls of `gen_rand32` hand out, too, and the two
states that are left hand out the same from there on. -/
theorem calls_eq_draws (hs : Reached s) (hinit : s.initialized = true) (hfits : ∀ c ∈ cs, c.Fits)
    (h : runCalls s cs = .ok (out, s')) :
    ∃ t, draws s out.length = .ok (out, t) ∧
      ∀ m, ∃ more u u', draws s' m = .ok (more, u) ∧ draws t m = .ok (more, u') := by
  obtain ⟨w, k, hdrawn, -⟩ := hs.known.started hinit
  rcases hdrawn.runCalls hfits with ⟨out', s'', hs'', hout, hdrawn'⟩ | hexit
  · obtain ⟨rfl, rfl⟩ := Prod.mk.inj (Except.ok.inj (hs''.symm.trans h))
    obtain ⟨t, ht, hdrawnt⟩ := hdrawn.draws out'.length
    rw [← hout] at ht
    refine ⟨t, ht, fun m => ?_⟩
    obtain ⟨u, hu, -⟩ := hdrawn'.draws m
    obtain ⟨u', hu', -⟩ := hdrawnt.draws m
    exact ⟨_, u, u', hu, hu'⟩
  · rw [hexit] at h
    cases h

theorem calls_eq_draws_seeded : ∃ s out s' t, initGenRand .start 42 = .ok s ∧ runCalls s sampleCalls = .ok (out, s') ∧
    draws s (n32 + 4) = .ok (out, t) ∧
    ∀ m, ∃ more u u', draws s' m = .ok (more, u) ∧ draws t m = .ok (more, u') := by
  obtain ⟨s, out, s', hs, hreached, hinit, hrun, hlen⟩ := exists_sampleCalls
  obtain ⟨t, ht, hsame⟩ := calls_eq_draws hreached hinit sampleCalls_fits hrun
  rw [hlen] at ht
  exact ⟨s, out, s', t, hs, hrun, ht, hsame⟩

/-! ### The certificate of the period -/

theorem certified_of_inner {sfmt : List W128} (hlen : sfmt.length = n) (hinner : innerProduct sfmt = some true) :
    periodCertification sfmt = .ok sfmt := by
  have hN : n = 156 := rfl
  obtain ⟨x, hx⟩ := exists_flat (show 0 < 4 * sfmt.length by omega)
  rw [periodCertification_eq hinner hx, if_pos rfl]

/-- **Every initialization goes through and is certified**: `period_certification` finds nothing to change any more in
what it leaves.  `init_gen_rand` fills in the words of its seed, but for the lowest bit of the first.  And however many
calls have been served since, the state is where the recurrence gets from a certified one. -/
theorem init_certified (hs : Reached s) :
    (∀ seed, ∃ sfmt, initGenRand s seed = .ok ⟨sfmt, n32, true⟩ ∧ periodCertification sfmt = .ok sfmt ∧
      (∀ i, 1 ≤ i → i < n32 → flat sfmt i = some (seedWord seed i)) ∧
      (flat sfmt 0 = some seed ∨ flat sfmt 0 = some (seed ^^^ 1))) ∧
    (∀ initKey, ∃ sfmt, initByArray initKey = .ok ⟨sfmt, n32, true⟩ ∧ periodCertification sfmt = .ok sfmt) ∧
    (s.initialized = true → ∃ w base, recurrence.Follows w ∧ s.sfmt = window w base n ∧
      periodCertification (window w 0 n) = .ok (window w 0 n)) := by
  refine ⟨fun seed => ?_, fun initKey => ?_, fun hinit => ?_⟩
  · obtain ⟨sfmt, hspec, hlen, hinner, hrest, hfirst, -⟩ := initGenRand_spec hs.known.length seed
    exact ⟨sfmt, hspec, certified_of_inner hlen hinner, hrest, hfirst⟩
  · obtain ⟨sfmt, hspec, hlen, hinner⟩ := initByArray_spec initKey
    exact ⟨sfmt, hspec, certified_of_inner hlen hinner⟩
  · obtain ⟨w, k, hdrawn, hinner⟩ := hs.known.started hinit
    obtain ⟨base, hsfmt, -⟩ := hdrawn.sfmt
    exact ⟨w, base, hdrawn.follows, hsfmt, certified_of_inner (length_window _ _ _) hinner⟩

theorem init_certified_start : ∃ sfmt, initGenRand .start 42 = .ok ⟨sfmt, n32, true⟩ ∧
    periodCertification sfmt = .ok sfmt ∧ flat sfmt 1 = some (seedWord 42 1) := by
  obtain ⟨sfmt, hs, hcert, hwords, -⟩ := (init_certified .start).1 42
  exact ⟨sfmt, hs, hcert, hwords 1 le_rfl (by decide)⟩

/-! ### What the words keep clear of -/

theorem recurrence_zero : recurrence.rule (fun _ => ⟨0, 0, 0, 0⟩) = ⟨0, 0, 0, 0⟩ := by decide

/-- A sequence that passes the parity check is never zero for as long as the state is. -/
theorem exists_ne_zero (hw : recurrence.Follows w) (hinner : innerProduct (window w 0 n) = some true) (k : ℕ) :
    ∃ i < n, w (k + i) ≠ ⟨0, 0, 0, 0⟩ := by
  by_contra hall
  have hzero : ∀ i < n, w (k + i) = ⟨0, 0, 0, 0⟩ := fun i hi => by
    by_contra hne
    exact hall ⟨i, hi, hne⟩
  have hconst := reversible.eq_const recurrence_zero hw hzero
  have hwindow : window w 0 n = List.replicate n ⟨0, 0, 0, 0⟩ := by
    rw [window, List.map_congr_left fun j _ => hconst (0 + j), List.map_const', List.length_range]
  rw [hwindow] at hinner
  have hflat : ∀ i < 4, flat (List.replicate n (⟨0, 0, 0, 0⟩ : W128)) i = some 0 := fun i hi => by
    rw [flat, List.getElem?_replicate, if_pos (show i / 4 < n by have hN : n = 156 := rfl; omega)]
    rcases i with _ | _ | _ | _ | i <;> first | rfl | omega
  rw [innerProduct, hflat 0 (by decide), hflat 1 (by decide), hflat 2 (by decide), hflat 3 (by decide)] at hinner
  have hsum : ∀ i, checkSum 0 i = false := fun i => by
    rw [checkSum, UInt32.zero_and]
    rfl
  simp [hsum] at hinner

instance : Finite W128 := Finite.of_injective (fun x => (x.u0.toBitVec.toFin, x.u1.toBitVec.toFin, x.u2.toBitVec.toFin,
    x.u3.toBitVec.toFin)) fun x y h => by
  simp only [Prod.mk.injEq] at h
  exact W128.ext (UInt32.toBitVec_inj.mp (BitVec.toFin_inj.mp h.1)) (UInt32.toBitVec_inj.mp (BitVec.toFin_inj.mp h.2.1))
    (UInt32.toBitVec_inj.mp (BitVec.toFin_inj.mp h.2.2.1)) (UInt32.toBitVec_inj.mp (BitVec.toFin_inj.mp h.2.2.2))

/-- **The generator never gets stuck.**  No state it gets to is zero, so that of any `n32 + 3` numbers it hands out in a
row one is not zero; and the words come back to where they are: after some number of draws it hands out from then on
what it hands out now. -/
theorem never_stuck (hs : Reached s) (hinit : s.initialized = true) :
    s.sfmt ≠ List.replicate n ⟨0, 0, 0, 0⟩ ∧
    (∀ k, ∃ i < n32 + 3, word s.seq (k + i) ≠ 0) ∧
    ∃ p > 0, ∃ out t, draws s p = .ok (out, t) ∧
      ∀ m, ∃ more u u', draws s m = .ok (more, u) ∧ draws t m = .ok (more, u') := by
  obtain ⟨w, k, hdrawn, hinner⟩ := hs.known.started hinit
  obtain ⟨base, hsfmt, -⟩ := hdrawn.sfmt
  obtain ⟨base', hseq, -⟩ := hdrawn.seq
  refine ⟨fun hzero => ?_, fun k => ?_, ?_⟩
  · obtain ⟨i, hi, hne⟩ := exists_ne_zero hdrawn.follows hinner base
    have hget := getElem?_window w base hi
    rw [← hsfmt, hzero, List.getElem?_replicate, if_pos hi] at hget
    exact hne (Option.some.inj hget).symm
  · -- the first word of 128 bits that starts at `k` or behind it
    obtain ⟨i, hi, hne⟩ := exists_ne_zero hdrawn.follows hinner (base' + (k + 3) / 4)
    have hN : n32 = 4 * n := rfl
    by_contra hall
    have hzero : ∀ j < 4, word s.seq (4 * ((k + 3) / 4 + i) + j) = 0 := by
      intro j hj
      by_contra hne
      refine hall ⟨4 * ((k + 3) / 4 + i) + j - k, by omega, ?_⟩
      rwa [show k + (4 * ((k + 3) / 4 + i) + j - k) = 4 * ((k + 3) / 4 + i) + j by omega]
    have hu : ∀ j < 4, (w (base' + (k + 3) / 4 + i)).u j = 0 := by
      intro j hj
      have hj' := hzero j hj
      rwa [hseq, word, show (4 * ((k + 3) / 4 + i) + j) / 4 = (k + 3) / 4 + i by omega, W128.u, Nat.mul_add_mod,
        ← Nat.add_assoc, ← W128.u] at hj'
    exact hne (W128.ext (hu 0 (by decide)) (hu 1 (by decide)) (hu 2 (by decide)) (hu 3 (by decide)))
  · obtain ⟨p, hp, hperiod⟩ := reversible.exists_period hdrawn.follows
    obtain ⟨t, ht, hdrawn'⟩ := hdrawn.draws (4 * p)
    refine ⟨4 * p, by omega, _, t, ht, fun m => ?_⟩
    obtain ⟨u, hu, -⟩ := hdrawn.draws m
    obtain ⟨u', hu', -⟩ := hdrawn'.draws m
    have hsame : window (word w) (n32 + (k + 4 * p)) m = window (word w) (n32 + k) m := by
      apply List.map_congr_left
      intro j _
      rw [word, word, show (n32 + (k + 4 * p) + j) / 4 = (n32 + k + j) / 4 + p by omega, hperiod, W128.u, W128.u,
        show n32 + (k + 4 * p) + j = n32 + k + j + 4 * p by omega, Nat.add_mul_mod_self_left]
    exact ⟨_, u, u', hu, hsame ▸ hu'⟩

theorem never_stuck_seeded : ∃ s, initGenRand .start 42 = .ok s ∧ s.sfmt ≠ List.replicate n ⟨0, 0, 0, 0⟩ := by
  obtain ⟨s, hs, hreached, hinit, -⟩ := exists_seeded 42
  exact ⟨s, hs, (never_stuck hreached hinit).1⟩

/-! ### Seeds -/

/-- A sequence is told by `n32` words of 32 bits in a row. -/
theorem eq_of_words (hw : recurrence.Follows w) (hw' : recurrence.Follows w') {b : ℕ}
    (h : window (word w) (4 * b) n32 = window (word w') (4 * b) n32) : w = w' := by
  have hN : n32 = 4 * n := rfl
  refine reversible.eq_of_window hw hw' (k := b) fun i hi => ?_
  have hi : i < n := hi
  have hu : ∀ j < 4, (w (b + i)).u j = (w' (b + i)).u j := by
    intro j hj
    have hword := congrArg (fun l => l[4 * i + j]?) h
    simp only [getElem?_window _ _ (show 4 * i + j < n32 by omega), Option.some.injEq] at hword
    rw [word, word, show (4 * b + (4 * i + j)) / 4 = b + i by omega, W128.u, W128.u, Nat.mul_add_mod,
      Nat.mul_add_mod] at hword
    exact hword
  exact W128.ext (hu 0 (by decide)) (hu 1 (by decide)) (hu 2 (by decide)) (hu 3 (by decide))

/-- **Seeds are told apart by the numbers drawn**: the first `n32` numbers drawn after `init_gen_rand` decide the seed,
whatever the generator did before; and after the same seed the state is the same. -/
theorem draws_eq_iff {r r' t t' : State} {seed seed' : UInt32} {m : ℕ} (hr : Reached r) (hr' : Reached r')
    (ht : initGenRand r seed = .ok t) (ht' : initGenRand r' seed' = .ok t') (hm : n32 ≤ m) :
    ((draws t m).map Prod.fst = (draws t' m).map Prod.fst ↔ seed = seed') ∧ (seed = seed' → t = t') := by
  obtain ⟨sfmt, hspec, hlen, -, hrest, -, hsame⟩ := initGenRand_spec hr.known.length seed
  obtain ⟨sfmt', hspec', hlen', -, hrest', -⟩ := initGenRand_spec hr'.known.length seed'
  have hword := hrest 1 le_rfl (by decide)
  have hword' := hrest' 1 le_rfl (by decide)
  have heq : seed = seed' → t = t' := by
    rintro rfl
    rw [hspec] at ht
    rw [hsame r' hr'.known.length] at ht'
    exact (Except.ok.inj ht).symm.trans (Except.ok.inj ht')
  rw [hspec] at ht
  rw [hspec'] at ht'
  cases ht
  cases ht'
  refine ⟨⟨fun hdraws => ?_, fun hseed => by rw [heq hseed]⟩, heq⟩
  obtain ⟨u, hu, -⟩ := (drawn_of_init hlen).draws m
  obtain ⟨u', hu', -⟩ := (drawn_of_init hlen').draws m
  rw [hu, hu'] at hdraws
  have hwords : window (word (State.seq ⟨sfmt, n32, true⟩)) (n32 + 0) m =
      window (word (State.seq ⟨sfmt', n32, true⟩)) (n32 + 0) m := Except.ok.inj hdraws
  have hfirst := congrArg (List.take n32) hwords
  rw [show m = n32 + (m - n32) by omega, window_append, window_append, List.take_left' (length_window _ _ _),
    List.take_left' (length_window _ _ _)] at hfirst
  have hseq := eq_of_words (b := n) (drawn_of_init hlen).follows (drawn_of_init hlen').follows hfirst
  -- the states are the same, and so is the second word of each
  have hflat : ∀ {a : List W128}, a.length = n → ∃ base, a = window (State.seq ⟨a, n32, true⟩) base n ∧ base = 0 := by
    intro a ha
    obtain ⟨base, hbase, hk⟩ := (drawn_of_init ha).sfmt
    exact ⟨base, hbase, by dsimp only at hk; omega⟩
  obtain ⟨_, hbase, rfl⟩ := hflat hlen
  obtain ⟨_, hbase', rfl⟩ := hflat hlen'
  have hstates : sfmt = sfmt' := hbase.trans ((congrArg (fun w => window w 0 n) hseq).trans hbase'.symm)
  rw [hstates, hword'] at hword
  exact seedWord_one_injective (Option.some.inj hword).symm

theorem draws_ne_seeded : ∃ t t', initGenRand .start 1 = .ok t ∧ initGenRand .start 2 = .ok t' ∧
    (draws t n32).map Prod.fst ≠ (draws t' n32).map Prod.fst := by
  obtain ⟨t, ht, -⟩ := exists_seeded 1
  obtain ⟨t', ht', -⟩ := exists_seeded 2
  exact ⟨t, t', ht, ht', fun h => absurd ((draws_eq_iff .start .start ht ht' le_rfl).1.mp h) (by decide)⟩

end Draws

end Sfmt

end Dedisbench
