import Mathlib.Data.List.Forall2
import Mathlib.Data.List.Induction

/-!
# Fallible steps and the loops made of them

A step that can fail is a function into `Except ε`; a loop is `List.foldlM` of its body over the
values its counter takes.  The lemmas say what a loop that came to its end has kept (`foldlM_inv`),
what it has set up at every value of its counter (`foldlM_establishes`), and when it does come to
its end (`foldlM_ok`).  `collectM` is the loop that gathers results and stops at the first one
missing.
-/

namespace ExceptRun

universe u v

variable {ε : Type v} {α β σ : Type u}

theorem bind_eq_ok {x : Except ε α} {f : α → Except ε β} {b : β} :
    (x >>= f) = .ok b ↔ ∃ a, x = .ok a ∧ f a = .ok b := by
  cases x with
  | error e => simp [bind, Except.bind]
  | ok a => simp [bind, Except.bind]

theorem bind_ok (a : α) (f : α → Except ε β) : ((.ok a : Except ε α) >>= f) = f a := rfl

theorem bind_error (e : ε) (f : α → Except ε β) : ((.error e : Except ε α) >>= f) = .error e := rfl

theorem pure_eq_ok {a b : α} : (pure a : Except ε α) = .ok b ↔ a = b := by
  simp [pure, Except.pure]

theorem foldlM_cons_eq_ok {f : σ → α → Except ε σ} {a : α} {l : List α} {s s' : σ} :
    (a :: l).foldlM f s = .ok s' ↔ ∃ t, f s a = .ok t ∧ l.foldlM f t = .ok s' := by
  rw [List.foldlM_cons, bind_eq_ok]

theorem foldlM_nil_eq_ok {f : σ → α → Except ε σ} {s s' : σ} :
    ([] : List α).foldlM f s = .ok s' ↔ s = s' := by
  rw [List.foldlM_nil, pure_eq_ok]

theorem foldlM_append_eq_ok {f : σ → α → Except ε σ} {l l' : List α} {s s' : σ} :
    (l ++ l').foldlM f s = .ok s' ↔ ∃ t, l.foldlM f s = .ok t ∧ l'.foldlM f t = .ok s' := by
  rw [List.foldlM_append, bind_eq_ok]

theorem foldlM_congr {f f' : σ → α → Except ε σ} {l : List α} (h : ∀ s, ∀ a ∈ l, f s a = f' s a) (s : σ) :
    l.foldlM f s = l.foldlM f' s := by
  induction l generalizing s with
  | nil => rfl
  | cons a l ih =>
    rw [List.foldlM_cons, List.foldlM_cons, h s a List.mem_cons_self]
    congr 1
    funext t
    exact ih (fun s b hb => h s b (List.mem_cons_of_mem _ hb)) t

/-- **Loop invariant.**  What every step keeps, the loop keeps. -/
theorem foldlM_inv {f : σ → α → Except ε σ} {P : σ → Prop} {l : List α}
    (step : ∀ s a s', a ∈ l → P s → f s a = .ok s' → P s') :
    ∀ {s s' : σ}, P s → l.foldlM f s = .ok s' → P s' := by
  induction l with
  | nil =>
    intro s s' hs h
    exact foldlM_nil_eq_ok.mp h ▸ hs
  | cons a l ih =>
    intro s s' hs h
    obtain ⟨t, ht, h⟩ := foldlM_cons_eq_ok.mp h
    exact ih (fun s b s' hb => step s b s' (List.mem_cons_of_mem _ hb))
      (step s a t List.mem_cons_self hs ht) h

/-- **What a loop sets up.**  Let every step keep an invariant `P`.  If under it the step at `a` establishes
`Q a`, and no step of the loop undoes it, then after the loop `Q a` holds of every `a` it went through. -/
theorem foldlM_establishes {f : σ → α → Except ε σ} {P : σ → Prop} {Q : α → σ → Prop} {l : List α}
    (inv : ∀ s a s', a ∈ l → P s → f s a = .ok s' → P s')
    (self : ∀ s a s', a ∈ l → P s → f s a = .ok s' → Q a s')
    (keep : ∀ s a s' b, a ∈ l → b ∈ l → P s → Q b s → f s a = .ok s' → Q b s') :
    ∀ {s s' : σ}, P s → l.foldlM f s = .ok s' → ∀ a ∈ l, Q a s' := by
  induction l with
  | nil => intro s s' _ _ a ha; exact absurd ha (List.not_mem_nil)
  | cons b l ih =>
    intro s s' hs h a ha
    obtain ⟨t, ht, hrest⟩ := foldlM_cons_eq_ok.mp h
    have hl : ∀ c ∈ l, c ∈ b :: l := fun c hc => List.mem_cons_of_mem _ hc
    have hP : P t := inv s b t List.mem_cons_self hs ht
    rcases List.mem_cons.mp ha with rfl | ha
    · refine (foldlM_inv (P := fun u => P u ∧ Q a u) ?_ ⟨hP, self s a t List.mem_cons_self hs ht⟩ hrest).2
      intro u c u' hc hu hstep
      exact ⟨inv u c u' (hl c hc) hu.1 hstep, keep u c u' a (hl c hc) List.mem_cons_self hu.1 hu.2 hstep⟩
    · exact ih (fun s c s' hc => inv s c s' (hl c hc)) (fun s c s' hc => self s c s' (hl c hc))
        (fun s c s' d hc hd => keep s c s' d (hl c hc) (hl d hd)) hP hrest a ha

/-- **What a loop makes of a part of the state**, if every step that goes through makes it by that part alone. -/
theorem foldlM_part {τ : Type*} {f : σ → α → Except ε σ} {φ : σ → τ} {g : τ → α → τ} {l : List α}
    (h : ∀ s a s', f s a = .ok s' → φ s' = g (φ s) a) {s s' : σ} (hl : l.foldlM f s = .ok s') :
    φ s' = l.foldl g (φ s) := by
  induction l generalizing s with
  | nil => exact foldlM_nil_eq_ok.mp hl ▸ rfl
  | cons a l ih =>
    obtain ⟨t, ht, hl⟩ := foldlM_cons_eq_ok.mp hl
    rw [List.foldl_cons, ← h s a t ht]
    exact ih hl

/-- A loop over states that are images of others, where a step is one of those. -/
theorem foldlM_map {τ : Type u} {f : τ → α → Except ε τ} {g : σ → α → Except ε σ} {φ : σ → τ}
    (h : ∀ s a, f (φ s) a = (do
      let s' ← g s a
      .ok (φ s'))) (l : List α) (s : σ) : l.foldlM f (φ s) = (do
      let s' ← l.foldlM g s
      .ok (φ s')) := by
  induction l generalizing s with
  | nil => rfl
  | cons a l ih =>
    rw [List.foldlM_cons, List.foldlM_cons, h]
    cases g s a with
    | error e => rfl
    | ok t => exact ih t

/-- A loop with a guard on the arguments of its steps. -/
theorem foldlM_guard {f g : σ → α → Except ε σ} {C : α → Prop} {l : List α}
    (hC : ∀ s, ∀ a ∈ l, C a → ∀ s', f s a ≠ .ok s')
    (h : ∀ s, ∀ a ∈ l, ¬ C a → f s a = g s a) {s s' : σ} :
    l.foldlM f s = .ok s' ↔ (∀ a ∈ l, ¬ C a) ∧ l.foldlM g s = .ok s' := by
  constructor
  · intro hf
    have hnot : ∀ a ∈ l, ¬ C a := by
      clear h
      induction l generalizing s with
      | nil => intro a ha; cases ha
      | cons b l ih =>
        obtain ⟨t, ht, hf⟩ := foldlM_cons_eq_ok.mp hf
        intro a ha hCa
        rcases List.mem_cons.mp ha with rfl | ha
        · exact hC s a List.mem_cons_self hCa t ht
        · exact ih (fun s c hc => hC s c (List.mem_cons_of_mem _ hc)) hf a ha hCa
    exact ⟨hnot, (foldlM_congr (fun s a ha => h s a ha (hnot a ha)) s).symm.trans hf⟩
  · rintro ⟨hnot, hg⟩
    exact (foldlM_congr (fun s a ha => h s a ha (hnot a ha)) s).trans hg

/-- **What a fold leaves.**  Each step brings about `P` or leaves it as it is, by its argument alone; then `P` holds in
the end if some argument brings it about or it held before. -/
theorem foldl_iff {f : σ → α → σ} {P : σ → Prop} {C : α → Prop} {l : List α}
    (h : ∀ s, ∀ a ∈ l, P (f s a) ↔ C a ∨ P s) (s : σ) : P (l.foldl f s) ↔ (∃ a ∈ l, C a) ∨ P s := by
  induction l generalizing s with
  | nil => simp
  | cons a l ih =>
    rw [List.foldl_cons, ih (fun s b hb => h s b (List.mem_cons_of_mem _ hb)), h s a List.mem_cons_self]
    simp only [List.mem_cons, exists_eq_or_imp]
    rw [← or_assoc, or_comm (b := C a)]

/-- **What the last argument of a kind leaves.**  A part of the state that an argument of the kind sets, and no other one
changes, is in the end what the last one has set. -/
theorem foldl_last {τ β : Type*} {f : σ → α → σ} {φ : σ → τ} {sel : α → Option β} {val : β → τ}
    (h : ∀ s a, φ (f s a) = ((sel a).map val).getD (φ s)) (l : List α) (s : σ) :
    φ (l.foldl f s) = ((l.filterMap sel).getLast?.map val).getD (φ s) := by
  induction l using List.reverseRecOn with
  | nil => rfl
  | append_singleton l a ih =>
    rw [List.foldl_append, List.foldl_cons, List.foldl_nil, h, List.filterMap_append, List.getLast?_append]
    cases hsel : sel a with
    | none => simpa [hsel] using ih
    | some b => simp [hsel]

/-- The same of a loop, where an argument of the kind only says something about the part that it sets. -/
theorem foldlM_last {τ β : Type*} {f : σ → α → Except ε σ} {φ : σ → τ} {sel : α → Option β} {V : Option β → τ → Prop}
    (h : ∀ s a s', f s a = .ok s' → (sel a = none → φ s' = φ s) ∧ ∀ b, sel a = some b → V (some b) (φ s'))
    {l : List α} {s s' : σ} (hs : V none (φ s)) (hl : l.foldlM f s = .ok s') :
    V (l.filterMap sel).getLast? (φ s') := by
  induction l using List.reverseRecOn generalizing s' with
  | nil => exact foldlM_nil_eq_ok.mp hl ▸ hs
  | append_singleton l a ih =>
    obtain ⟨t, ht, hl⟩ := foldlM_append_eq_ok.mp hl
    obtain ⟨u, hu, hl⟩ := foldlM_cons_eq_ok.mp hl
    obtain rfl := foldlM_nil_eq_ok.mp hl
    obtain ⟨hkeep, hset⟩ := h t a u hu
    rw [List.filterMap_append, List.getLast?_append]
    cases hsel : sel a with
    | none => simpa [hsel, hkeep hsel] using ih ht
    | some b => simpa [hsel] using hset b hsel

/-- **Progress.**  If the invariant lets every step go through and each step keeps it, the loop
comes to its end. -/
theorem foldlM_ok {f : σ → α → Except ε σ} {P : σ → Prop} {l : List α}
    (step : ∀ s a, a ∈ l → P s → ∃ s', f s a = .ok s' ∧ P s') :
    ∀ {s : σ}, P s → ∃ s', l.foldlM f s = .ok s' ∧ P s' := by
  induction l with
  | nil => intro s hs; exact ⟨s, rfl, hs⟩
  | cons a l ih =>
    intro s hs
    obtain ⟨t, ht, hP⟩ := step s a List.mem_cons_self hs
    obtain ⟨s', hs', hP'⟩ := ih (fun s b hb => step s b (List.mem_cons_of_mem _ hb)) hP
    exact ⟨s', foldlM_cons_eq_ok.mpr ⟨t, ht, hs'⟩, hP'⟩

/-- **A loop over a counter.**  If under an invariant of the counter every step goes through exactly on a condition, and
keeps the invariant, the loop comes to its end exactly if the condition holds of every value the counter takes. -/
theorem foldlM_range_ok_iff {σ : Type} {f : σ → ℕ → Except ε σ} {P : ℕ → σ → Prop} {C : ℕ → Prop} {n : ℕ}
    (progress : ∀ i < n, ∀ s, P i s → ((∃ s', f s i = .ok s') ↔ C i))
    (keep : ∀ i < n, ∀ s s', P i s → f s i = .ok s' → P (i + 1) s') {s : σ} (hs : P 0 s) :
    ((∃ s', (List.range n).foldlM f s = .ok s') ↔ ∀ i < n, C i) ∧
      ∀ s', (List.range n).foldlM f s = .ok s' → P n s' := by
  induction n with
  | zero =>
    refine ⟨⟨fun _ i hi => absurd hi (Nat.not_lt_zero i), fun _ => ⟨s, rfl⟩⟩, fun s' h => ?_⟩
    exact foldlM_nil_eq_ok.mp h ▸ hs
  | succ n ih =>
    obtain ⟨hiff, hinv⟩ := ih (fun i hi => progress i (Nat.lt_succ_of_lt hi)) fun i hi => keep i (Nat.lt_succ_of_lt hi)
    simp only [List.range_succ, foldlM_append_eq_ok, foldlM_cons_eq_ok, foldlM_nil_eq_ok]
    refine ⟨⟨?_, fun hC => ?_⟩, ?_⟩
    · rintro ⟨_, t, ht, u, hu, -⟩ i hi
      rcases Nat.lt_succ_iff_lt_or_eq.mp hi with hlt | rfl
      · exact hiff.mp ⟨t, ht⟩ i hlt
      · exact (progress i hi t (hinv t ht)).mp ⟨u, hu⟩
    · obtain ⟨t, ht⟩ := hiff.mpr fun i hi => hC i (Nat.lt_succ_of_lt hi)
      obtain ⟨u, hu⟩ := (progress n n.lt_succ_self t (hinv t ht)).mpr (hC n n.lt_succ_self)
      exact ⟨u, t, ht, u, hu, rfl⟩
    · rintro _ ⟨t, ht, u, hu, rfl⟩
      exact keep n n.lt_succ_self t u (hinv t ht) hu

/-- **Progress of a loop over a counter**, from `a` on. -/
theorem foldlM_range'_ok {σ : Type} {f : σ → ℕ → Except ε σ} {P : ℕ → σ → Prop} {a n : ℕ}
    (step : ∀ i, a ≤ i → i < a + n → ∀ s, P i s → ∃ s', f s i = .ok s' ∧ P (i + 1) s') {s : σ} (hs : P a s) :
    ∃ s', (List.range' a n).foldlM f s = .ok s' ∧ P (a + n) s' := by
  induction n generalizing a s with
  | zero => exact ⟨s, rfl, hs⟩
  | succ n ih =>
    obtain ⟨t, ht, hP⟩ := step a (Nat.le_refl a) (by omega) s hs
    obtain ⟨s', hs', hP'⟩ := ih (fun i hi hn => step i (by omega) (by omega)) hP
    refine ⟨s', ?_, ?_⟩
    · rw [List.range'_succ, foldlM_cons_eq_ok]
      exact ⟨t, ht, hs'⟩
    · rwa [Nat.add_right_comm] at hP'

/-- A loop that fails does so in one of its steps. -/
theorem exists_of_foldlM_error {f : σ → α → Except ε σ} {l : List α} {s : σ} {e : ε}
    (h : l.foldlM f s = .error e) : ∃ t, ∃ a ∈ l, f t a = .error e := by
  induction l generalizing s with
  | nil => cases h
  | cons a l ih =>
    rw [List.foldlM_cons] at h
    cases hstep : f s a with
    | error e' =>
      rw [hstep, bind_error] at h
      exact ⟨s, a, List.mem_cons_self, hstep.trans h⟩
    | ok t =>
      rw [hstep, bind_ok] at h
      obtain ⟨u, b, hb, hfail⟩ := ih h
      exact ⟨u, b, List.mem_cons_of_mem _ hb, hfail⟩

/-- **A loop that is simulated by another.**  Let every step of a loop be matched by `n` steps of another one, with
the states related.  Then the whole loop is. -/
theorem exists_steps_of_foldlM {τ : Type u} {f : σ → α → Except ε σ} {g : τ → β → Except ε τ} {R : τ → σ → Prop}
    {Q : β → Prop} {n : ℕ} {l : List α}
    (sim : ∀ s a s' t, a ∈ l → R t s → f s a = .ok s' →
      ∃ (bs : List β) (t' : τ), bs.length = n ∧ (∀ b ∈ bs, Q b) ∧ bs.foldlM g t = .ok t' ∧ R t' s') :
    ∀ {s s' : σ} {t : τ}, R t s → l.foldlM f s = .ok s' →
      ∃ (bs : List β) (t' : τ), bs.length = l.length * n ∧ (∀ b ∈ bs, Q b) ∧ bs.foldlM g t = .ok t' ∧ R t' s' := by
  induction l with
  | nil =>
    intro s s' t hR h
    obtain rfl := foldlM_nil_eq_ok.mp h
    exact ⟨[], t, by simp, by simp, rfl, hR⟩
  | cons a l ih =>
    intro s s' t hR h
    obtain ⟨s₁, hs₁, h⟩ := foldlM_cons_eq_ok.mp h
    obtain ⟨bs, t₁, hlen, hbs, ht₁, hR₁⟩ := sim s a s₁ t List.mem_cons_self hR hs₁
    obtain ⟨bs', t', hlen', hbs', ht', hR'⟩ := ih (fun s b s' t hb => sim s b s' t (List.mem_cons_of_mem _ hb)) hR₁ h
    refine ⟨bs ++ bs', t', ?_, fun b hb => ?_, foldlM_append_eq_ok.mpr ⟨t₁, ht₁, ht'⟩, hR'⟩
    · rw [List.length_append, hlen, hlen', List.length_cons, Nat.succ_mul, Nat.add_comm]
    · exact (List.mem_append.mp hb).elim (hbs b) (hbs' b)

/-- Every element of the right list has its partner in the left one. -/
theorem exists_of_mem_right {R : α → β → Prop} {l : List α} {bs : List β} (h : List.Forall₂ R l bs) :
    ∀ b ∈ bs, ∃ a ∈ l, R a b := by
  induction h with
  | nil => intro b hb; exact absurd hb List.not_mem_nil
  | @cons a b' l bs hab _ ih =>
    intro b hb
    rcases List.mem_cons.mp hb with rfl | hb
    · exact ⟨a, List.mem_cons_self, hab⟩
    · obtain ⟨a', ha', hR⟩ := ih b hb
      exact ⟨a', List.mem_cons_of_mem _ ha', hR⟩

/-! ## Gathering results -/

/-- `f` on every element in turn, until the first one without a result. -/
def collectM (f : α → Except ε (Option β)) : List α → Except ε (Option (List β))
  | [] => .ok (some [])
  | a :: l => do
    match ← f a with
    | none => .ok none
    | some b =>
      match ← collectM f l with
      | none => .ok none
      | some bs => .ok (some (b :: bs))

theorem collectM_eq_some {f : α → Except ε (Option β)} :
    ∀ {l : List α} {bs : List β}, collectM f l = .ok (some bs) →
      List.Forall₂ (fun a b => f a = .ok (some b)) l bs := by
  intro l
  induction l with
  | nil =>
    intro bs h
    simp only [collectM, Except.ok.injEq, Option.some.injEq] at h
    subst h
    exact .nil
  | cons a l ih =>
    intro bs h
    rw [collectM, bind_eq_ok] at h
    obtain ⟨o, ho, h⟩ := h
    cases o with
    | none => simp at h
    | some b =>
      simp only [bind_eq_ok] at h
      obtain ⟨o', ho', h⟩ := h
      cases o' with
      | none => simp at h
      | some bs' =>
        simp only [Except.ok.injEq, Option.some.injEq] at h
        subst h
        exact .cons ho (ih ho')

/-- A result for each element is a result for all. -/
theorem collectM_ok {f : α → Except ε (Option β)} {l : List α} (h : ∀ a ∈ l, ∃ b, f a = .ok (some b)) :
    ∃ bs, collectM f l = .ok (some bs) := by
  induction l with
  | nil => exact ⟨[], rfl⟩
  | cons a l ih =>
    obtain ⟨b, hb⟩ := h a List.mem_cons_self
    obtain ⟨bs, hbs⟩ := ih fun a' ha' => h a' (List.mem_cons_of_mem _ ha')
    exact ⟨b :: bs, by simp only [collectM, hb, hbs, bind_ok]⟩

/-- If no element is without a result, neither is the whole. -/
theorem collectM_ne_none {f : α → Except ε (Option β)} {l : List α} (h : ∀ a ∈ l, f a ≠ .ok none) :
    collectM f l ≠ .ok none := by
  induction l with
  | nil => simp [collectM]
  | cons a l ih =>
    intro hnone
    rw [collectM, bind_eq_ok] at hnone
    obtain ⟨o, ho, hnone⟩ := hnone
    cases o with
    | none => exact h a List.mem_cons_self ho
    | some b =>
      simp only [bind_eq_ok] at hnone
      obtain ⟨o', ho', hnone⟩ := hnone
      cases o' with
      | none => exact ih (fun a' ha' => h a' (List.mem_cons_of_mem _ ha')) ho'
      | some bs => cases hnone

end ExceptRun
