import Mathlib.Order.Interval.Finset.Nat
import Dedisbench.Generator.Loaded

/-!
# The model of an id

`loadModels` shares the ids out among the models: `x` of them to the first, the rest as evenly as possible to the
others.  `get_model_by_id_and_compression` adds the shares up until they reach the id.  So it stops at the one model
among whose ids it is (`modelLoop_eq`), and every model has as many ids as it was given (`models_serve_ids`).
-/

namespace Dedisbench

open ExceptRun Spans

/-- The id is one of the `i`-th model: the shares before it do not reach the id, with its own they do. -/
def Serves (shares : List ℕ) (i id : ℕ) : Prop := i < shares.length ∧ start shares i < id ∧ id ≤ start shares (i + 1)

instance (shares : List ℕ) (i : ℕ) : DecidablePred (Serves shares i) := fun id =>
  inferInstanceAs (Decidable (i < shares.length ∧ start shares i < id ∧ id ≤ start shares (i + 1)))

section Shares

variable {shares : List ℕ} {i j id : ℕ}

theorem serves_iff {n : ℕ} (hi : shares[i]? = some n) :
    Serves shares i id ↔ start shares i < id ∧ id ≤ start shares i + n := by
  rw [Serves, start_succ hi]
  exact and_iff_right (List.getElem?_eq_some_iff.mp hi).1

theorem Serves.unique (h : Serves shares i id) (h' : Serves shares j id) : j = i := by
  have hi := List.getElem?_eq_getElem h.1
  have hj := List.getElem?_eq_getElem h'.1
  exact span_unique hj hi ((serves_iff hj).mp h') ((serves_iff hi).mp h)

theorem exists_serves (hpos : 1 ≤ id) (hid : id ≤ shares.sum) : ∃ i, Serves shares i id := by
  obtain ⟨i, n, hi, hspan⟩ := exists_span hpos hid
  exact ⟨i, (serves_iff hi).mpr hspan⟩

/-- A model has as many ids as its share. -/
theorem card_serves {n : ℕ} (hi : shares[i]? = some n) :
    ((Finset.Icc 1 shares.sum).filter (Serves shares i)).card = n := by
  have hfilter : (Finset.Icc 1 shares.sum).filter (Serves shares i) =
      Finset.Ioc (start shares i) (start shares i + n) := by
    ext id
    have hend := span_le hi
    rw [Finset.mem_filter, Finset.mem_Icc, Finset.mem_Ioc, serves_iff hi]
    omega
  rw [hfilter, Nat.card_Ioc, Nat.add_sub_cancel_left]

end Shares

/-! ### The search -/

/-- **Where the search stops**: at the first index up to which the shares reach the id. -/
theorem Generator.modelLoop_eq {id : ℕ} : ∀ {rest : List ℕ} {indice somatorio i : ℕ},
    somatorio + rest.sum < 2 ^ 32 → i ≤ rest.length → id ≤ somatorio + start rest i →
    (∀ j < i, somatorio + start rest j < id) → Generator.modelLoop id rest indice somatorio = .ok (indice + i) := by
  intro rest
  induction rest with
  | nil =>
    intro indice somatorio i _ hi hid _
    obtain rfl := Nat.le_zero.mp hi
    rw [start_zero, Nat.add_zero] at hid
    rw [Generator.modelLoop, if_pos hid, Nat.add_zero]
  | cons a rest ih =>
    intro indice somatorio i hlt hi hid hbefore
    cases i with
    | zero =>
      rw [start_zero, Nat.add_zero] at hid
      rw [Generator.modelLoop, if_pos hid, Nat.add_zero]
    | succ i =>
      have hfirst : somatorio < id := hbefore 0 (Nat.succ_pos i)
      rw [List.sum_cons, ← Nat.add_assoc] at hlt
      rw [start_cons_succ, ← Nat.add_assoc] at hid
      have hnext : ∀ j < i, somatorio + a + start rest j < id := by
        intro j hj
        have h := hbefore (j + 1) (Nat.succ_lt_succ hj)
        rwa [start_cons_succ, ← Nat.add_assoc] at h
      rw [Generator.modelLoop, if_neg (not_le.mpr hfirst)]
      show Generator.modelLoop id rest (indice + 1) (u32 (somatorio + a)) = _
      rw [u32_of_lt (by omega), ih hlt (Nat.le_of_succ_le_succ hi) hid hnext, Nat.add_right_comm, Nat.add_assoc]

/-- **The model of an id** is the one that serves it. -/
theorem Generator.getModel_of_serves {g : Generator} {i id c : ℕ} (hsum : g.atribuicao.sum < 2 ^ 32)
    (hlen : g.atribuicao.length = nrModels) (hmodels : ModelsOk g.blockSize g.modelos)
    (h : Serves g.atribuicao i id) (hc : c ≤ 9) : g.getModelByIdAndCompression id c = .ok ⟨i, c⟩ := by
  obtain ⟨hi, hlow, hhigh⟩ := h
  have hat : ∃ b, g.modelAt ⟨i, c⟩ = .ok b := by
    have him : i < g.modelos.length := by rwa [hmodels.length, ← hlen]
    have hcm : c < g.modelos[i].length := by
      rw [hmodels.compressions _ (List.getElem_mem him)]
      omega
    refine ⟨g.modelos[i][c], ?_⟩
    rw [Generator.modelAt, vecAt_eq_ok.mpr (List.getElem?_eq_getElem him), bind_ok]
    exact vecAt_eq_ok.mpr (List.getElem?_eq_getElem hcm)
  obtain ⟨b, hb⟩ := hat
  unfold Generator.getModelByIdAndCompression
  cases hcons : g.atribuicao with
  | nil =>
    rw [hcons] at hi
    exact absurd hi (Nat.not_lt_zero i)
  | cons a rest =>
    rw [hcons] at hsum hi hlow hhigh
    rw [start_cons_succ] at hhigh
    have hbefore : ∀ j < i, a + start rest j < id := by
      intro j hj
      rw [← start_cons_succ]
      exact lt_of_le_of_lt (start_mono (Nat.succ_le_of_lt hj)) hlow
    have hloop := @Generator.modelLoop_eq id rest 0 a i hsum (Nat.le_of_lt_succ hi) hhigh hbefore
    rw [Nat.zero_add] at hloop
    simp only [hloop, hb, bind_ok]

/-! ### The assignment -/

/-- The shares add up to all the ids. -/
theorem sum_assignModels_of_le {bu x : ℕ} (hbu : bu < 2 ^ 32) (hx : x ≤ bu) : (assignModels bu x).sum = bu := by
  unfold assignModels
  rw [List.sum_cons, sum_shares (by decide), u32_sub_of_le hbu hx]
  omega

/-- The assignment that `loadModels` builds. -/
theorem loadModels_eq_ok {g g' : Generator} {d : LoadDraws} (h : loadModels g d = .ok (g', 1)) :
    (∃ x, toUInt ((Float.ofNat g.percentagemCompressaoEntreBlocos / 100).sqrt * Float.ofNat g.totalUniqueBlocks) =
      .ok x ∧ g'.atribuicao = assignModels g.totalUniqueBlocks x ∧
      (1 ≤ g.percentagemCompressaoEntreBlocos ∧ g.percentagemCompressaoEntreBlocos ≤ 100 →
        g.totalUniqueBlocks < 2 ^ 32 → x ≤ g.totalUniqueBlocks)) ∧ ModelsOk g'.blockSize g'.modelos := by
  unfold loadModels at h
  rw [bind_eq_ok] at h
  obtain ⟨o, hm, h⟩ := h
  cases o with
  | none => cases h
  | some modelos =>
    simp only [bind_eq_ok] at h
    obtain ⟨x, hx, h⟩ := h
    cases h
    refine ⟨⟨x, hx, rfl, fun hpc htotal => ?_⟩, buildModels_eq_some hm⟩
    obtain ⟨y, hle, hy⟩ := exists_firstShare hpc htotal
    exact Except.ok.inj (hy.symm.trans hx) ▸ hle

/-- **Every id has its model, and every model its ids**: the list that `loadModels` builds has an entry for each model,
the entries add up to the ids, the search stops at the only model that serves an id, and every model serves as many
ids as it was assigned. -/
theorem models_serve_ids {bu x : ℕ} (hbu : bu < 2 ^ 32) (hx : x ≤ bu) :
    (assignModels bu x).length = nrModels ∧ (assignModels bu x).sum = bu ∧
    (∀ g : Generator, g.atribuicao = assignModels bu x → ModelsOk g.blockSize g.modelos →
      ∀ id, 1 ≤ id → id ≤ bu → ∃ i, Serves (assignModels bu x) i id ∧
        (∀ j, Serves (assignModels bu x) j id → j = i) ∧
        ∀ c ≤ 9, g.getModelByIdAndCompression id c = .ok ⟨i, c⟩) ∧
    (∀ i n, (assignModels bu x)[i]? = some n →
      ((Finset.Icc 1 bu).filter (Serves (assignModels bu x) i)).card = n) ∧
    ∀ g g' d, loadModels g d = .ok (g', 1) →
      (∃ y, toUInt ((Float.ofNat g.percentagemCompressaoEntreBlocos / 100).sqrt * Float.ofNat g.totalUniqueBlocks) =
        .ok y ∧ g'.atribuicao = assignModels g.totalUniqueBlocks y ∧
        (1 ≤ g.percentagemCompressaoEntreBlocos ∧ g.percentagemCompressaoEntreBlocos ≤ 100 →
          g.totalUniqueBlocks < 2 ^ 32 → y ≤ g.totalUniqueBlocks)) ∧ ModelsOk g'.blockSize g'.modelos := by
  have hlen := length_assignModels bu x
  have hsum := sum_assignModels_of_le hbu hx
  refine ⟨hlen, hsum, ?_, ?_, fun g g' d h => loadModels_eq_ok h⟩
  · intro g hassign hmodels id hid hle
    obtain ⟨i, hi⟩ := exists_serves hid (hle.trans hsum.ge)
    refine ⟨i, hi, fun j hj => hi.unique hj, fun c hc => ?_⟩
    rw [← hassign] at hlen hsum hi
    exact Generator.getModel_of_serves (hsum ▸ hbu) hlen hmodels hi hc
  · intro i n hi
    have hcard := card_serves hi
    rwa [hsum] at hcard

/-- A line without copies only. -/
def evenDistribution : List Char := "0 100 10 10 10 10 10 10 10 10 10 10\n".toList

/-- Seven ids, two of them for the first model and one for each of the last five: the last id has the last model. -/
theorem sevenIds_served : ∃ g info, initializeGenerator (.mk' 1048576 7 50 10) (some evenDistribution) plainDraws =
      .ok (g, some info, 1) ∧ g.atribuicao = assignModels 7 2 ∧ (assignModels 7 2).sum = 7 ∧
    ((Finset.Icc 1 7).filter (Serves (assignModels 7 2) 99)).card = 1 ∧
    g.getModelByIdAndCompression 7 3 = .ok ⟨99, 3⟩ := by
  obtain ⟨g, info, h, hg⟩ := exists_of_loadsWith (x := initializeGenerator (.mk' 1048576 7 50 10)
    (some evenDistribution) plainDraws) (T := fun g _ => g.atribuicao = assignModels 7 2) (by decide +kernel)
  have hassign : g.atribuicao = assignModels 7 2 := of_decide_eq_true hg
  obtain ⟨-, hsum, hserved, hcard, -⟩ := @models_serve_ids 7 2 (by decide) (by decide)
  obtain ⟨i, -, hunique, hmodel⟩ := hserved g hassign ( loaded_of_initialize h).1.models 7 (by decide) le_rfl
  obtain rfl : 99 = i := hunique 99 (by decide)
  exact ⟨g, info, h, hassign, hsum, hcard 99 1 (by decide), hmodel 3 (by decide)⟩

end Dedisbench
