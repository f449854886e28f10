import Microlisp.Lib.Limit
/-!
# Programs compared in worlds

A program on one kind of state is compared with one on another kind. What relates their states
and their values is indexed by worlds: as the runs go on the world may change, to one that comes
after it, and what held in an earlier world is carried over.

Two runs correspond if both return, in a world where their results are related, or both stop for
the same reason. Left runs that stop for a reason in `bl` and right runs that stop for one in `br`
are not compared.
-/
namespace Prog

variable {π σ τ ε ω ω' α β α' β' : Type}

/-- Only what the program does from this state counts. -/
theorem wp_of_run {M : Mode ω} {m n : Prog σ ε ω α} {s : σ} {Q : α → σ → Prop} {E : ε → σ → Prop} (h : m s = n s)
    (hn : wp M n s Q E) :
    wp M m s Q E := by
  unfold wp at hn ⊢
  rwa [h]

/-- How a world, with the two states, follows an earlier one. -/
abbrev Passage (π σ τ : Type) := π → σ → τ → π → σ → τ → Prop

section Corresponds
variable (bl br : Halt ε → Prop) (Next : Passage π σ τ) (I : π → σ → τ → Prop)

/-- From states that `I` relates in the world `p`, the two programs do the same. -/
def Corresponds (W : π → α → β → σ → τ → Prop) (m : Prog σ ε ω α) (m' : Prog τ ε ω' β) (p : π) (s : σ) (t : τ) : Prop :=
  I p s t → match (m s).res, (m' t).res with
    | .ok a, .ok b => ∃ p', Next p s t p' (m s).state (m' t).state ∧ I p' (m s).state (m' t).state ∧
        W p' a b (m s).state (m' t).state
    | .ok _, .error y => br y
    | .error x, .ok _ => bl x
    | .error x, .error y => bl x ∨ br y ∨ x = y ∧ ∀ e, x = .err e → ∃ p', Next p s t p' (m s).state (m' t).state ∧
        I p' (m s).state (m' t).state

variable {bl br Next I} {W : π → α → β → σ → τ → Prop} {U : π → α' → β' → σ → τ → Prop} {m n : Prog σ ε ω α}
    {m' n' : Prog τ ε ω' β}
  {p : π} {s : σ} {t : τ}

theorem Corresponds.error {x y : Halt ε} (hm : (m s).res = .error x) (hm' : (m' t).res = .error y)
    (h : I p s t → bl x ∨ br y ∨ x = y ∧ ∀ e, x = .err e → ∃ p', Next p s t p' (m s).state (m' t).state ∧
      I p' (m s).state (m' t).state) : Corresponds bl br Next I W m m' p s t := by
  intro hI
  simp only [hm, hm']
  exact h hI

/-- What relates the states may be used. -/
theorem Corresponds.given (h : I p s t → Corresponds bl br Next I W m m' p s t) :
    Corresponds bl br Next I W m m' p s t :=
  fun hI => h hI hI

/-- A left run that leaves it open. -/
theorem Corresponds.of_left {x : Halt ε} (hm : (m s).res = .error x) (hx : bl x) :
    Corresponds bl br Next I W m m' p s t := by
  intro _
  simp only [hm]
  cases (m' t).res with
  | ok b => exact hx
  | error y => exact .inl hx

/-- A right run that is not compared. -/
theorem Corresponds.of_right {y : Halt ε} (hm' : (m' t).res = .error y) (hy : br y) :
    Corresponds bl br Next I W m m' p s t := by
  intro _
  simp only [hm']
  cases (m s).res with
  | ok a => exact hy
  | error x => exact .inr (.inl hy)

theorem Corresponds.timeout :
    Corresponds bl br Next I W (Prog.timeout : Prog σ ε ω α) (Prog.timeout : Prog τ ε ω' β) p s t :=
  .error rfl rfl fun _ => .inr (.inr ⟨rfl, nofun⟩)

/-- The right program does what another one does from this state. -/
theorem Corresponds.run (h : m' t = n' t) (hn : Corresponds bl br Next I W m n' p s t) :
    Corresponds bl br Next I W m m' p s t := by
  intro hI
  simp only [h]
  exact hn hI

/-- What the right one records is not compared. -/
theorem Corresponds.emits {e : ω'} {f : Unit → Prog τ ε ω' β} (h : Corresponds bl br Next I W m (f ()) p s t) :
    Corresponds bl br Next I W m (emit e >>= f) p s t := by
  have hrun : (emit e >>= f) t = ⟨(f () t).res, (f () t).state, e :: (f () t).trace⟩ := rfl
  intro hI
  simp only [hrun]
  exact h hI

/-- The left program does what another one does. -/
theorem Corresponds.run_left (h : m s = n s) (hn : Corresponds bl br Next I W n m' p s t) :
    Corresponds bl br Next I W m m' p s t := by
  intro hI
  simp only [h]
  exact hn hI

theorem Corresponds.ite {b b' : Prop} [Decidable b] [Decidable b'] (hb : b ↔ b')
    (h : b → Corresponds bl br Next I W m m' p s t)
    (h' : ¬ b → Corresponds bl br Next I W n n' p s t) :
    Corresponds bl br Next I W (if b then m else n) (if b' then m' else n') p s t := by
  by_cases hx : b
  · rw [if_pos hx, if_pos (hb.1 hx)]
    exact h hx
  · rw [if_neg hx, if_neg fun hx' => hx (hb.2 hx')]
    exact h' hx

theorem Corresponds.bind (htrans : ∀ {p s t p' s' t' p'' s'' t''}, Next p s t p' s' t' →
    Next p' s' t' p'' s'' t'' → Next p s t p'' s'' t'')
    {f : α → Prog σ ε ω α'} {f' : β → Prog τ ε ω' β'} (h : Corresponds bl br Next I W m m' p s t)
    (hf : ∀ p' a b s' t', Next p s t p' s' t' → W p' a b s' t' → Corresponds bl br Next I U (f a) (f' b) p' s' t') :
    Corresponds bl br Next I U (m >>= f) (m' >>= f') p s t := by
  intro hI
  have h := h hI
  cases hm : (m s).res with
  | error x =>
    cases hm' : (m' t).res with
    | error y =>
      simp only [hm, hm', bind_of_error hm, bind_of_error hm'] at h ⊢
      exact h
    | ok b =>
      simp only [hm, hm'] at h
      exact Corresponds.of_left (m := m >>= f) (by rw [bind_of_error hm]) h hI
  | ok a =>
    cases hm' : (m' t).res with
    | error y =>
      simp only [hm, hm'] at h
      have hright : ((m' >>= f') t).res = .error y := by rw [bind_of_error hm']
      exact Corresponds.of_right hright h hI
    | ok b =>
      simp only [hm, hm'] at h
      obtain ⟨p', hnext, hI', hv⟩ := h
      have hfb := hf p' a b _ _ hnext hv hI'
      rw [bind_of_ok hm, bind_of_ok hm']
      cases hfa : (f a (m s).state).res <;> cases hfb' : (f' b (m' t).state).res <;> simp only [hfa, hfb'] at hfb ⊢
      · refine hfb.imp_right (Or.imp_right fun ⟨hx, hE⟩ => ⟨hx, fun e he => ?_⟩)
        obtain ⟨p'', hnext', hI''⟩ := hE e he
        exact ⟨p'', htrans hnext hnext', hI''⟩
      · exact hfb
      · exact hfb
      · obtain ⟨p'', hnext', hI'', hu⟩ := hfb
        exact ⟨p'', htrans hnext hnext', hI'', hu⟩

/-- A clean-up that the world does not see. -/
theorem Corresponds.onErr {g : τ → τ} (h : Corresponds bl br Next I W m m' p s t)
    (hg : ∀ p' s' t', Next p s t p' s' t' → I p' s' t' → Next p s t p' s' (g t') ∧ I p' s' (g t')) :
    Corresponds bl br Next I W m (m'.onErr g) p s t := by
  intro hI
  have h := h hI
  unfold Prog.onErr onError
  cases hm' : (m' t).res with
  | ok b =>
    simp only [hm'] at h ⊢
    exact h
  | error y =>
    cases y with
    | err e =>
      cases hm : (m s).res with
      | ok a =>
        simp only [hm, hm'] at h ⊢
        exact h
      | error x =>
        simp only [hm, hm'] at h ⊢
        refine h.imp_right (Or.imp_right fun ⟨hx, hE⟩ => ⟨hx, fun e he => ?_⟩)
        obtain ⟨p', hnext, hI'⟩ := hE e he
        exact ⟨p', hg p' _ _ hnext hI'⟩
    | stuck =>
      simp only [hm'] at h ⊢
      exact h
    | timeout =>
      simp only [hm'] at h ⊢
      exact h

/-- The left run returns, and the right one too, or it stops for a reason that is not compared. -/
theorem Corresponds.of_fully {a : α} {F : ε → τ → Prop} (hm : (m s).res = .ok a)
    (h : I p s t → wp Mode.fully m' t (fun b t' => ∃ p', Next p s t p' (m s).state t' ∧ I p' (m s).state t' ∧
    W p' a b (m s).state t') F)
    (hF : ∀ e t', F e t' → br (.err e)) : Corresponds bl br Next I W m m' p s t := by
  intro hI
  obtain ⟨o, ho, hok, herr⟩ := ends_of_wp_fully (h hI)
  unfold Run.Ends at ho
  cases o with
  | ok b =>
    simp only [hm, ho, mapError_ok]
    exact hok b rfl
  | error e =>
    simp only [hm, ho, mapError_error]
    exact hF e _ (herr e rfl)

/-- A clean-up after every run. -/
theorem Corresponds.andThen {g : τ → τ} (h : Corresponds bl br Next I W m m' p s t)
    (hg : ∀ p' s' t', Next p s t p' s' t' → I p' s' t' → Next p s t p' s' (g t') ∧ I p' s' (g t'))
    (hW : ∀ p' a b s' t', W p' a b s' t' → W p' a b s' (g t')) : Corresponds bl br Next I W m (m'.andThen g) p s t := by
  intro hI
  have h := h hI
  unfold Prog.andThen
  cases hm' : (m' t).res with
  | ok b =>
    cases hm : (m s).res with
    | ok a =>
      simp only [hm, hm'] at h ⊢
      obtain ⟨p', hnext, hI', hw⟩ := h
      obtain ⟨hnext', hI''⟩ := hg p' _ _ hnext hI'
      exact ⟨p', hnext', hI'', hW _ _ _ _ _ hw⟩
    | error x =>
      simp only [hm, hm'] at h ⊢
      exact h
  | error y =>
    cases y with
    | err e =>
      cases hm : (m s).res with
      | ok a =>
        simp only [hm, hm'] at h ⊢
        exact h
      | error x =>
        simp only [hm, hm'] at h ⊢
        refine h.imp_right (Or.imp_right fun ⟨hx, hE⟩ => ⟨hx, fun e he => ?_⟩)
        obtain ⟨p', hnext, hI'⟩ := hE e he
        exact ⟨p', hg p' _ _ hnext hI'⟩
    | stuck =>
      simp only [hm'] at h ⊢
      exact h
    | timeout =>
      simp only [hm'] at h ⊢
      exact h

/-- What only the right program does. -/
theorem Corresponds.unseen (htrans : ∀ {p s t p' s' t' p'' s'' t''}, Next p s t p' s' t' →
    Next p' s' t' p'' s'' t'' → Next p s t p'' s'' t'')
    {a : α} {n : Prog σ ε ω α'} {f' : β → Prog τ ε ω' β'}
    (h : Corresponds bl br Next I W (pure a : Prog σ ε ω α) m' p s t)
    (hf : ∀ p' b t', Next p s t p' s t' → W p' a b s t' → Corresponds bl br Next I U n (f' b) p' s t') :
    Corresponds bl br Next I U n (m' >>= f') p s t := by
  have hsame : Corresponds bl br Next I (fun p x b s' t' => x = a ∧ s' = s ∧ W p x b s' t')
      (pure a : Prog σ ε ω α) m' p s t := by
    intro hI
    have h := h hI
    cases hm' : (m' t).res with
    | error y =>
      simp only [hm'] at h ⊢
      exact h
    | ok b =>
      simp only [hm'] at h ⊢
      obtain ⟨p', hnext, hI', hw⟩ := h
      exact ⟨p', hnext, hI', rfl, rfl, hw⟩
  rw [← pure_bind a fun _ => n]
  apply Corresponds.bind @htrans hsame
  rintro p' _ b _ t' hnext ⟨rfl, rfl, hw⟩
  exact hf p' b t' hnext hw

/-- More is known of the states, where the runs end. -/
theorem Corresponds.carry {br' : Halt ε → Prop} {Next' : Passage π σ τ} {I' : π → σ → τ → Prop}
    (h : Corresponds bl br Next I W m m' p s t)
    (hI : I' p s t → I p s t) (hbr : ∀ x, br x → br' x)
    (hnext : ∀ p' o, I' p s t → (m' t).Ends o → Next p s t p' (m s).state (m' t).state → I p' (m s).state (m' t).state →
      Next' p s t p' (m s).state (m' t).state ∧ I' p' (m s).state (m' t).state) : Corresponds bl br' Next'
        I' W m m' p s t := by
  intro hI'
  have h := h (hI hI')
  cases hm : (m s).res with
  | ok a =>
    cases hm' : (m' t).res with
    | ok b =>
      simp only [hm, hm'] at h ⊢
      obtain ⟨p', hn, hI₁, hw⟩ := h
      obtain ⟨hn', hI₂⟩ := hnext p' (.ok b) hI' hm' hn hI₁
      exact ⟨p', hn', hI₂, hw⟩
    | error y =>
      simp only [hm, hm'] at h ⊢
      exact hbr y h
  | error x =>
    cases hm' : (m' t).res with
    | ok b =>
      simp only [hm, hm'] at h ⊢
      exact h
    | error y =>
      simp only [hm, hm'] at h ⊢
      refine h.imp_right (Or.imp (hbr y) fun ⟨hxy, hE⟩ => ⟨hxy, ?_⟩)
      rintro e rfl
      obtain ⟨p', hn, hI₁⟩ := hE e rfl
      exact ⟨p', hnext p' (.error e) hI' (hm'.trans (by rw [← hxy]; rfl)) hn hI₁⟩

/-- A third program in step with the right one. -/
theorem Corresponds.simulated {br' : Halt ε → Prop} {R : τ → τ → Prop} {n' : Prog τ ε ω' β} {t₁ : τ}
    (h : Corresponds bl br Next I W m m' p s t) (hsim : SimAt br' (fun _ => False) R n' m' t₁ t)
    (hI : I p s t₁ → I p s t) (hR : ∀ p' u u', R u u' → Next p s t p' (m s).state u' → I p' (m s).state u' →
      Next p s t₁ p' (m s).state u ∧ I p' (m s).state u)
    (hW : ∀ p' a b u u', R u u' → W p' a b (m s).state u' → W p' a b (m s).state u) :
    Corresponds bl (fun x => br x ∨ br' x) Next I W m n' p s t₁ := by
  intro hI₁
  have h := h (hI hI₁)
  unfold SimAt Run.Sim at hsim
  cases hn' : (n' t₁).res with
  | error y =>
    by_cases hy : br' y
    · cases (m s).res with
      | ok a => exact .inr hy
      | error x => exact .inr (.inl (.inr hy))
    · cases hm' : (m' t).res with
      | ok b =>
        simp only [hn', hm'] at hsim
        exact absurd hsim hy
      | error y' =>
        simp only [hn', hm', false_or] at hsim
        obtain ⟨rfl, hstate⟩ := hsim.resolve_left hy
        cases hm : (m s).res with
        | ok a =>
          simp only [hm, hm'] at h ⊢
          exact .inl h
        | error x =>
          simp only [hm, hm'] at h ⊢
          refine h.imp_right (Or.imp .inl fun ⟨hxy, hE⟩ => ⟨hxy, fun e he => ?_⟩)
          obtain ⟨p', hn, hI'⟩ := hE e he
          exact ⟨p', hR p' _ _ hstate hn hI'⟩
  | ok b =>
    cases hm' : (m' t).res with
    | error y' => simp only [hn', hm'] at hsim
    | ok b' =>
      simp only [hn', hm'] at hsim
      obtain ⟨rfl, hstate⟩ := hsim
      cases hm : (m s).res with
      | ok a =>
        simp only [hm, hm'] at h ⊢
        obtain ⟨p', hn, hI', hw⟩ := h
        obtain ⟨hn₁, hI''⟩ := hR p' _ _ hstate hn hI'
        exact ⟨p', hn₁, hI'', hW _ _ _ _ _ hstate hw⟩
      | error x =>
        simp only [hm, hm'] at h ⊢
        exact h

/-- What the right run ends in, the left one ends in, if it does not leave that open. -/
theorem Corresponds.ends {o : Except ε β} (h : Corresponds bl br Next I W m m' p s t) (hI : I p s t)
    (ho : (m' t).Ends o) (hbr : ∀ e, o = .error e → ¬ br (.err e)) :
    (∃ x, (m s).res = .error x ∧ bl x) ∨ ∃ o' p', (m s).Ends o' ∧ Next p s t p' (m s).state (m' t).state ∧
      I p' (m s).state (m' t).state ∧
        ((∃ a b, o' = .ok a ∧ o = .ok b ∧ W p' a b (m s).state (m' t).state) ∨ ∃ e, o' = .error e ∧ o = .error e) := by
  have h := h hI
  unfold Run.Ends at ho
  cases o with
  | ok b =>
    cases hm : (m s).res with
    | ok a =>
      simp only [hm, ho, mapError_ok] at h
      obtain ⟨p', hnext, hI', hw⟩ := h
      exact .inr ⟨.ok a, p', hm, hnext, hI', .inl ⟨a, b, rfl, rfl, hw⟩⟩
    | error x =>
      simp only [hm, ho, mapError_ok] at h
      exact .inl ⟨x, rfl, h⟩
  | error e =>
    cases hm : (m s).res with
    | ok a =>
      simp only [hm, ho, mapError_error] at h
      exact absurd h (hbr e rfl)
    | error x =>
      simp only [hm, ho, mapError_error] at h
      rcases h with h | h | ⟨rfl, h⟩
      · exact .inl ⟨x, rfl, h⟩
      · exact absurd h (hbr e rfl)
      · obtain ⟨p', hnext, hI'⟩ := h e rfl
        exact .inr ⟨.error e, p', hm, hnext, hI', .inr ⟨e, rfl, rfl⟩⟩

end Corresponds

end Prog
