import Mathlib.Data.List.Basic
import Dedisbench.Lib.Runs

/-!
# Interleavings

Several processes take steps on a common state.  Two sequences of steps are interleavings of the same programs if every
process takes the same steps in both, in the same order (`SamePrograms`).  When steps of different processes commute, as
far as the state is looked at, it does not matter which interleaving is run (`Commutes.foldlM_eq`).
-/

namespace Interleave

open ExceptRun

universe u v

variable {α β : Type u} {ι : Type*} [DecidableEq ι] (proc : α → ι)

/-- What one process does. -/
def program (i : ι) (l : List α) : List α := l.filter fun a => proc a = i

/-- Every process does the same in both. -/
def SamePrograms (l l' : List α) : Prop := ∀ i, program proc i l = program proc i l'

variable {proc} {i : ι} {a b : α} {l l' m m' : List α}

theorem program_append (i : ι) (l m : List α) : program proc i (l ++ m) = program proc i l ++ program proc i m :=
  List.filter_append ..

theorem program_cons_self : program proc (proc a) (a :: l) = a :: program proc (proc a) l :=
  List.filter_cons_of_pos (decide_eq_true rfl)

theorem program_cons_of_ne (h : proc a ≠ i) : program proc i (a :: l) = program proc i l :=
  List.filter_cons_of_neg (by simpa using h)

theorem SamePrograms.symm (h : SamePrograms proc l l') : SamePrograms proc l' l := fun i => (h i).symm

theorem SamePrograms.mem_iff (h : SamePrograms proc l l') : a ∈ l ↔ a ∈ l' := by
  have hmem : ∀ l : List α, a ∈ l ↔ a ∈ program proc (proc a) l := fun l => by simp [program]
  rw [hmem l, hmem l', h (proc a)]

theorem SamePrograms.nil (h : SamePrograms proc [] l) : l = [] :=
  List.eq_nil_iff_forall_not_mem.mpr fun _ ha => absurd (h.mem_iff.mpr ha) List.not_mem_nil

/-- The first step of the one is, in the other, the first of its process. -/
theorem SamePrograms.exists_split (h : SamePrograms proc (a :: l) l') :
    ∃ m m', l' = m ++ a :: m' ∧ (∀ b ∈ m, proc b ≠ proc a) ∧ SamePrograms proc l (m ++ m') := by
  have hfirst := h (proc a)
  rw [program_cons_self, eq_comm, program, List.filter_eq_cons_iff] at hfirst
  obtain ⟨m, m', rfl, hm, -, hm'⟩ := hfirst
  have hother : ∀ b ∈ m, proc b ≠ proc a := fun b hb heq => hm b hb (decide_eq_true heq)
  refine ⟨m, m', rfl, hother, fun i => ?_⟩
  have hi := h i
  rw [program_append] at hi ⊢
  by_cases hai : proc a = i
  · subst hai
    rw [program_cons_self, program_cons_self] at hi
    have hnone : program proc (proc a) m = [] := List.filter_eq_nil_iff.mpr fun b hb => by simpa using hother b hb
    rw [hnone] at hi ⊢
    exact (List.cons.inj hi).2
  · rwa [program_cons_of_ne hai, program_cons_of_ne hai] at hi

theorem SamePrograms.perm (h : SamePrograms proc l l') : l.Perm l' := by
  induction l generalizing l' with
  | nil => rw [h.nil]
  | cons a l ih =>
    obtain ⟨m, m', rfl, -, hrest⟩ := h.exists_split
    exact ((ih hrest).cons a).trans List.perm_middle.symm

/-- Every step replaced by steps of the same process. -/
theorem program_flatMap {proc' : β → ι} {e : β → List α} (h : ∀ b, ∀ a ∈ e b, proc a = proc' b) (i : ι) (l : List β) :
    program proc i (l.flatMap e) = (program proc' i l).flatMap e := by
  induction l with
  | nil => rfl
  | cons b l ih =>
    rw [List.flatMap_cons, program_append, ih]
    by_cases hb : proc' b = i
    · subst hb
      have hall : program proc (proc' b) (e b) = e b :=
        List.filter_eq_self.mpr fun a ha => decide_eq_true (h b a ha)
      rw [program_cons_self, List.flatMap_cons, hall]
    · have hnone : program proc i (e b) = [] := by
        refine List.filter_eq_nil_iff.mpr fun a ha => ?_
        rw [decide_eq_true_iff, h b a ha]
        exact hb
      rw [program_cons_of_ne hb, hnone, List.nil_append]

theorem SamePrograms.flatMap {proc' : β → ι} {e : β → List α} (h : ∀ b, ∀ a ∈ e b, proc a = proc' b) {l l' : List β}
    (hl : SamePrograms proc' l l') : SamePrograms proc (l.flatMap e) (l'.flatMap e) := fun i => by
  rw [program_flatMap h, program_flatMap h, hl i]

/-! ### Steps that commute -/

section Commutes

variable {ε : Type v} {σ : Type u} {τ : Type*} (proc)

/-- From states with `P`, steps with `Q` of different processes commute, as far as `obs` sees; and what is seen after a
step depends on what was seen before. -/
structure Commutes (f : σ → α → Except ε σ) (obs : σ → τ) (P : σ → Prop) (Q : α → Prop) : Prop where
  keep : ∀ s a t, P s → Q a → f s a = .ok t → P t
  respects : ∀ s s' a t, P s → P s' → Q a → obs s = obs s' → f s a = .ok t → ∃ t', f s' a = .ok t' ∧ obs t = obs t'
  swap : ∀ s a b t u, P s → Q a → Q b → proc a ≠ proc b → f s a = .ok t → f t b = .ok u →
    ∃ t' u', f s b = .ok t' ∧ f t' a = .ok u' ∧ obs u = obs u'

variable {proc} {f : σ → α → Except ε σ} {obs : σ → τ} {P : σ → Prop} {Q : α → Prop} {s s' t : σ}

omit [DecidableEq ι] in
theorem Commutes.keep_run (hf : Commutes proc f obs P Q) (hl : ∀ a ∈ l, Q a) (hs : P s) (h : l.foldlM f s = .ok t) :
    P t :=
  foldlM_inv (P := P) (fun _ a _ ha hs h => hf.keep _ _ _ hs (hl a ha) h) hs h

omit [DecidableEq ι] in
theorem Commutes.respects_run (hf : Commutes proc f obs P Q) (hl : ∀ a ∈ l, Q a) (hs : P s) (hs' : P s')
    (hobs : obs s = obs s') (h : l.foldlM f s = .ok t) : ∃ t', l.foldlM f s' = .ok t' ∧ obs t = obs t' := by
  induction l generalizing s s' with
  | nil =>
    obtain rfl := foldlM_nil_eq_ok.mp h
    exact ⟨s', rfl, hobs⟩
  | cons a l ih =>
    obtain ⟨u, hu, h⟩ := foldlM_cons_eq_ok.mp h
    have ha := hl a List.mem_cons_self
    obtain ⟨u', hu', hobs'⟩ := hf.respects _ _ _ _ hs hs' ha hobs hu
    obtain ⟨t', ht', hobs''⟩ := ih (fun b hb => hl b (List.mem_cons_of_mem _ hb)) (hf.keep _ _ _ hs ha hu)
      (hf.keep _ _ _ hs' ha hu') hobs' h
    exact ⟨t', foldlM_cons_eq_ok.mpr ⟨u', hu', ht'⟩, hobs''⟩

omit [DecidableEq ι] in
/-- A step moves behind those of other processes. -/
theorem Commutes.move (hf : Commutes proc f obs P Q) (ha : Q a) (hm : ∀ b ∈ m, Q b ∧ proc b ≠ proc a) (hs : P s)
    (h : (a :: m).foldlM f s = .ok t) : ∃ t', (m ++ [a]).foldlM f s = .ok t' ∧ obs t = obs t' := by
  induction m generalizing s t with
  | nil => exact ⟨t, h, rfl⟩
  | cons b m ih =>
    obtain ⟨u, hu, h⟩ := foldlM_cons_eq_ok.mp h
    obtain ⟨v, hv, h⟩ := foldlM_cons_eq_ok.mp h
    obtain ⟨hb, hne⟩ := hm b List.mem_cons_self
    obtain ⟨u', v', hu', hv', hobs⟩ := hf.swap _ _ _ _ _ hs ha hb hne.symm hu hv
    have hrest : ∀ c ∈ m, Q c ∧ proc c ≠ proc a := fun c hc => hm c (List.mem_cons_of_mem _ hc)
    have hPu' := hf.keep _ _ _ hs hb hu'
    obtain ⟨t₁, ht₁, hobs₁⟩ := hf.respects_run (fun c hc => (hrest c hc).1) (hf.keep _ _ _ (hf.keep _ _ _ hs ha hu) hb hv)
      (hf.keep _ _ _ hPu' ha hv') hobs h
    obtain ⟨t', ht', hobs'⟩ := ih hrest hPu' (foldlM_cons_eq_ok.mpr ⟨v', hv', ht₁⟩)
    exact ⟨t', foldlM_cons_eq_ok.mpr ⟨u', hu', ht'⟩, hobs₁.trans hobs'⟩

/-- **It does not matter which interleaving is run.** -/
theorem Commutes.foldlM_eq (hf : Commutes proc f obs P Q) (hl : ∀ a ∈ l, Q a) (hsame : SamePrograms proc l l')
    (hs : P s) (h : l.foldlM f s = .ok t) : ∃ t', l'.foldlM f s = .ok t' ∧ obs t = obs t' := by
  induction l generalizing s l' with
  | nil =>
    rw [hsame.nil]
    exact ⟨t, h, rfl⟩
  | cons a l ih =>
    have hl' : ∀ b ∈ l', Q b := fun b hb => hl b (hsame.mem_iff.mpr hb)
    obtain ⟨m, m', rfl, hother, hrest⟩ := hsame.exists_split
    obtain ⟨u, hu, h⟩ := foldlM_cons_eq_ok.mp h
    have ha := hl a List.mem_cons_self
    have hm : ∀ b ∈ m, Q b ∧ proc b ≠ proc a := fun b hb => ⟨hl' b (List.mem_append_left _ hb), hother b hb⟩
    obtain ⟨v, hv, hobs⟩ := ih (fun b hb => hl b (List.mem_cons_of_mem _ hb)) hrest (hf.keep _ _ _ hs ha hu) h
    obtain ⟨w, hw, hv⟩ := foldlM_append_eq_ok.mp hv
    obtain ⟨w', hw', hobs'⟩ := hf.move ha hm hs (foldlM_cons_eq_ok.mpr ⟨u, hu, hw⟩)
    have hQ : ∀ b ∈ m ++ [a], Q b := by
      intro b hb
      rcases List.mem_append.mp hb with hb | hb
      · exact (hm b hb).1
      · exact List.mem_singleton.mp hb ▸ ha
    have hPw := hf.keep_run (fun b hb => (hm b hb).1) (hf.keep _ _ _ hs ha hu) hw
    obtain ⟨v', hv', hobs''⟩ := hf.respects_run (fun b hb => hl' b (List.mem_append_right _ (List.mem_cons_of_mem _ hb)))
      hPw (hf.keep_run hQ hs hw') hobs' hv
    refine ⟨v', ?_, hobs.trans hobs''⟩
    rw [show m ++ a :: m' = (m ++ [a]) ++ m' by simp]
    exact foldlM_append_eq_ok.mpr ⟨w', hw', hv'⟩

end Commutes

end Interleave
