import Microlisp.Lib.Limit
/-!
# Two programs with related results

The runs of two programs are compared: both return, with results and states that `V`
relates, or both stop for the same reason, with states that `E` relates. Runs on the left
that stop for a reason in `bl` are not compared.
-/
namespace Prog

variable {σ τ ε ω ω' α β α' β' : Type}

def RelatedAt (bl : Halt ε → Prop) (V : α → β → σ → τ → Prop) (E : σ → τ → Prop) (m : Prog σ ε ω α) (m' : Prog τ ε ω' β)
    (s : σ) (t : τ) : Prop :=
  match (m s).res, (m' t).res with
  | .ok a, .ok b => V a b (m s).state (m' t).state
  | .ok _, .error _ => False
  | .error x, .ok _ => bl x
  | .error x, .error y => bl x ∨ x = y ∧ ∀ e, x = .err e → E (m s).state (m' t).state

/-- A program on the first part of the state. What it records is dropped. -/
def onFst {ρ : Type} (m : Prog σ ε ω α) : Prog (σ × ρ) ε ω' α := fun s => ⟨(m s.1).res, ((m s.1).state, s.2), []⟩

section Rules
variable {bl : Halt ε → Prop} {V V' : α → β → σ → τ → Prop} {E E' : σ → τ → Prop} {m n : Prog σ ε ω α}
    {m' n' : Prog τ ε ω' β}
  {s : σ} {t : τ}

theorem relatedAt_pure {a : α} {b : β} (h : V a b s t) :
    RelatedAt bl V E (pure a : Prog σ ε ω α) (pure b : Prog τ ε ω' β) s t := h

theorem relatedAt_fail {e : ε} (h : E s t) : RelatedAt bl V E (fail e : Prog σ ε ω α) (fail e : Prog τ ε ω' β) s t :=
  .inr ⟨rfl, fun _ _ => h⟩

theorem relatedAt_timeout : RelatedAt bl V E (timeout : Prog σ ε ω α) (timeout : Prog τ ε ω' β) s t := .inr ⟨rfl, nofun⟩

/-- A left run that is not compared. -/
theorem relatedAt_of_left {x : Halt ε} (hr : (m s).res = .error x) (hbl : bl x) : RelatedAt bl V E m m' s t := by
  unfold RelatedAt
  rw [hr]
  cases (m' t).res with
  | ok _ => exact hbl
  | error _ => exact .inl hbl

/-- What is related more closely. -/
theorem RelatedAt.mono (h : RelatedAt bl V E m m' s t) (hV : ∀ a b s t, V a b s t → V' a b s t)
    (hE : ∀ s t, E s t → E' s t) :
    RelatedAt bl V' E' m m' s t := by
  unfold RelatedAt at h ⊢
  cases hr : (m s).res <;> cases hr' : (m' t).res <;> simp only [hr, hr'] at h ⊢
  · exact h.imp_right fun hx => ⟨hx.1, fun e he => hE _ _ (hx.2 e he)⟩
  · exact h
  · exact hV _ _ _ _ h

theorem RelatedAt.bind {W : α' → β' → σ → τ → Prop} {f : α → Prog σ ε ω α'} {f' : β → Prog τ ε ω' β'}
    (h : RelatedAt bl V E m m' s t)
    (hf : ∀ a b s t, V a b s t → RelatedAt bl W E (f a) (f' b) s t) : RelatedAt bl W E (m >>= f) (m' >>= f') s t := by
  unfold RelatedAt at h
  cases hr : (m s).res with
  | error x =>
    cases hr' : (m' t).res with
    | error y =>
      unfold RelatedAt
      rw [bind_of_error hr, bind_of_error hr']
      simpa only [hr, hr'] using h
    | ok b => exact relatedAt_of_left (by rw [bind_of_error hr]) (by simpa only [hr, hr'] using h)
  | ok a =>
    cases hr' : (m' t).res with
    | error y => simp only [hr, hr'] at h
    | ok b =>
      simp only [hr, hr'] at h
      unfold RelatedAt
      rw [bind_of_ok hr, bind_of_ok hr']
      exact hf a b _ _ h

theorem RelatedAt.ite {b : Prop} [Decidable b] (h : b → RelatedAt bl V E m m' s t)
    (h' : ¬ b → RelatedAt bl V E n n' s t) :
    RelatedAt bl V E (if b then m else n) (if b then m' else n') s t := by
  by_cases hb : b
  · simpa only [if_pos hb] using h hb
  · simpa only [if_neg hb] using h' hb

/-- Two readings of the states. -/
theorem relatedAt_gets {g : σ → α} {g' : τ → β} {W : α' → β' → σ → τ → Prop} {f : α → Prog σ ε ω α'}
    {f' : β → Prog τ ε ω' β'}
    (h : RelatedAt bl W E (f (g s)) (f' (g' t)) s t) : RelatedAt bl W E (gets g >>= f) (gets g' >>= f') s t := by
  unfold RelatedAt
  rw [gets_bind_run, gets_bind_run]
  exact h

/-- Two changes of the states. -/
theorem relatedAt_modify {g : σ → σ} {g' : τ → τ} {W : α' → β' → σ → τ → Prop} {f : Unit → Prog σ ε ω α'}
    {f' : Unit → Prog τ ε ω' β'}
    (h : RelatedAt bl W E (f ()) (f' ()) (g s) (g' t)) : RelatedAt bl W E (modify g >>= f) (modify g' >>= f') s t := by
  unfold RelatedAt
  rw [modify_bind_run, modify_bind_run]
  exact h

/-- The clean-up may change what relates the states. -/
theorem RelatedAt.andThen {g : σ → σ} {g' : τ → τ} (h : RelatedAt bl V E m m' s t)
    (hV : ∀ a b s t, V a b s t → V' a b (g s) (g' t)) (hE : ∀ s t, E s t → E' (g s) (g' t)) :
    RelatedAt bl V' E' (m.andThen g) (m'.andThen g') s t := by
  unfold RelatedAt Prog.andThen at *
  cases hr : (m s).res with
  | ok a => cases hr' : (m' t).res with
    | ok b => simpa only [hr, hr'] using hV _ _ _ _ (by simpa only [hr, hr'] using h)
    | error y => simp only [hr, hr'] at h
  | error x => cases hr' : (m' t).res with
    | ok b => cases x <;> simpa only [hr, hr'] using h
    | error y =>
      simp only [hr, hr'] at h
      rcases h with h | ⟨rfl, h⟩
      · cases x <;> cases y <;> exact .inl h
      · cases x with
        | err e => exact .inr ⟨rfl, fun _ _ => hE _ _ (h e rfl)⟩
        | stuck => exact .inr ⟨rfl, nofun⟩
        | timeout => exact .inr ⟨rfl, nofun⟩

theorem RelatedAt.onErr {g : σ → σ} {g' : τ → τ} (h : RelatedAt bl V E m m' s t) (hE : ∀ s t, E s t → E' (g s) (g' t)) :
    RelatedAt bl V E' (m.onErr g) (m'.onErr g') s t := by
  unfold RelatedAt Prog.onErr Prog.onError at *
  cases hr : (m s).res with
  | ok a => cases hr' : (m' t).res with
    | ok b => simpa only [hr, hr'] using h
    | error y => simp only [hr, hr'] at h
  | error x => cases hr' : (m' t).res with
    | ok b => cases x <;> simpa only [hr, hr'] using h
    | error y =>
      simp only [hr, hr'] at h
      rcases h with h | ⟨rfl, h⟩
      · cases x <;> cases y <;> (simp only [hr, hr']; exact .inl h)
      · cases x with
        | err e => exact .inr ⟨rfl, fun _ _ => hE _ _ (h e rfl)⟩
        | stuck =>
          simp only [hr, hr']
          exact .inr ⟨trivial, nofun⟩
        | timeout =>
          simp only [hr, hr']
          exact .inr ⟨trivial, nofun⟩

/-- Runs side by side return the same. -/
theorem SimAt.relatedAt {R : σ → τ → Prop} {m : Prog σ ε ω α} {m' : Prog τ ε ω' α}
    (h : SimAt bl (fun _ => False) R m m' s t) :
    RelatedAt bl (fun a b s t => a = b ∧ R s t) R m m' s t := by
  unfold SimAt Run.Sim at h
  unfold RelatedAt
  cases hr : (m s).res <;> cases hr' : (m' t).res <;> simp only [hr, hr', false_or] at h ⊢
  · exact h.imp_right fun hx => ⟨hx.1, fun _ _ => hx.2⟩
  · exact h
  · exact h

/-- What is known of the left run besides. -/
theorem RelatedAt.knowing {P : α → Prop} (h : RelatedAt bl V E m m' s t) (hP : ∀ a, (m s).res = .ok a → P a) :
    RelatedAt bl (fun a b s t => P a ∧ V a b s t) E m m' s t := by
  unfold RelatedAt at h ⊢
  cases hr : (m s).res <;> cases hr' : (m' t).res <;> simp only [hr, hr'] at h ⊢
  · exact h
  · exact h
  · exact ⟨hP _ hr, h⟩

/-- A left run that does not stop for such a reason. -/
theorem RelatedAt.strict (h : RelatedAt bl V E m m' s t) (hbl : ∀ x, (m s).res = .error x → ¬ bl x) :
    RelatedAt (fun _ => False) V E m m' s t := by
  unfold RelatedAt at h ⊢
  cases hr : (m s).res <;> cases hr' : (m' t).res <;> simp only [hr, hr'] at h ⊢
  · exact .inr (h.resolve_left (hbl _ hr))
  · exact hbl _ hr h
  · exact h

/-- What the left run returns, the right one returns. -/
theorem RelatedAt.ok {a : α} (h : RelatedAt bl V E m m' s t) (ha : (m s).res = .ok a) :
    ∃ b, (m' t).res = .ok b ∧ V a b (m s).state (m' t).state := by
  unfold RelatedAt at h
  cases hr' : (m' t).res with
  | ok b => exact ⟨b, rfl, by simpa only [ha, hr'] using h⟩
  | error y => simp only [ha, hr'] at h

/-- The same step on both sides, from one state. -/
theorem relatedAt_same {W : α' → β' → σ → σ → Prop} {E : σ → σ → Prop} {f : α → Prog σ ε ω α'} {f' : α → Prog σ ε ω β'}
    (hE : ∀ s, E s s) (hf : ∀ a s, RelatedAt bl W E (f a) (f' a) s s) : RelatedAt bl W E (m >>= f) (m >>= f') s s := by
  have h : RelatedAt bl (fun a b s t => a = b ∧ s = t) E m m s s := by
    unfold RelatedAt
    cases (m s).res with
    | ok a => exact ⟨rfl, rfl⟩
    | error x => exact .inr ⟨rfl, fun _ _ => hE _⟩
  apply h.bind
  rintro a _ s _ ⟨rfl, rfl⟩
  exact hf a s

/-- A run beside itself, where it stops with an error or not at all. -/
theorem relatedAt_self {m : Prog σ ε ω α} {Q : α → σ → Prop} {F : ε → σ → Prop} (h : wp Mode.fully m s Q F) :
    RelatedAt bl (fun a b s t => a = b ∧ s = t ∧ Q a s) (fun s t => s = t ∧ ∃ e, F e s) m m s s := by
  obtain ⟨o, ho, hok, herr⟩ := ends_of_wp_fully h
  unfold Run.Ends at ho
  unfold RelatedAt
  cases o with
  | ok a =>
    rw [ho]
    exact ⟨rfl, rfl, hok a rfl⟩
  | error e =>
    rw [ho]
    exact .inr ⟨rfl, fun _ _ => ⟨rfl, e, herr e rfl⟩⟩

/-- What holds wherever a run beside another one ends. -/
theorem RelatedAt.ends_left {P : σ → Prop} {o : Except ε α} (h : RelatedAt (fun _ => False) (fun _ _ s _ => P s)
    (fun s _ => P s) m m' s t)
    (ho : (m s).Ends o) : P (m s).state := by
  unfold Run.Ends at ho
  unfold RelatedAt at h
  cases o with
  | ok a => cases hr' : (m' t).res with
    | ok b => simpa only [ho, hr', mapError_ok] using h
    | error y => simp only [ho, hr', mapError_ok] at h
  | error e => cases hr' : (m' t).res with
    | ok b => simp only [ho, hr', mapError_error] at h
    | error y =>
      simp only [ho, hr', mapError_error, false_or] at h
      exact h.2 e rfl

/-- Why the left run stops, the right one stops. -/
theorem RelatedAt.error {x : Halt ε} (h : RelatedAt bl V E m m' s t) (hx : (m s).res = .error x) :
    bl x ∨ (m' t).res = .error x := by
  unfold RelatedAt at h
  cases hr' : (m' t).res with
  | ok b => exact .inl (by simpa only [hx, hr'] using h)
  | error y =>
    simp only [hx, hr'] at h
    exact h.imp_right fun h => by rw [h.1]

/-- A step that only the left run takes. -/
theorem relatedAt_left {W : α' → β' → σ → τ → Prop} {f : α → Prog σ ε ω α'} {n' : Prog τ ε ω' β'} {Q : α → σ → Prop}
    {F : ε → σ → Prop} (h : wp Mode.fully m s Q F) (hbl : ∀ e s, F e s → bl (.err e))
    (hf : ∀ a s, Q a s → RelatedAt bl W E (f a) n' s t) : RelatedAt bl W E (m >>= f) n' s t := by
  obtain ⟨o, ho, hok, herr⟩ := ends_of_wp_fully h
  cases o with
  | ok a =>
    unfold RelatedAt
    rw [bind_of_ok ho]
    exact hf a _ (hok a rfl)
  | error e => exact relatedAt_of_left (by rw [bind_of_error ho]) (hbl e _ (herr e rfl))

/-- What the right run ends in, the left one ends in, where every run is compared. -/
theorem RelatedAt.transfer {Q : β → τ → Prop} {F : ε → τ → Prop} (h : RelatedAt (fun _ => False) V E m m' s t)
    (hw : wp Mode.fully m' t Q F) :
    wp Mode.fully m s (fun a s' => ∃ b t', V a b s' t' ∧ Q b t') (fun e s' => ∃ t', E s' t' ∧ F e t') := by
  obtain ⟨o, ho, hok, herr⟩ := ends_of_wp_fully hw
  unfold RelatedAt at h
  unfold Run.Ends at ho
  refine fun _ => ⟨fun _ _ => trivial, ?_⟩
  cases o with
  | ok b =>
    cases hr : (m s).res with
    | ok a => exact ⟨b, _, by simpa only [hr, ho, mapError_ok] using h, hok b rfl⟩
    | error x => simp only [hr, ho, mapError_ok] at h
  | error e =>
    cases hr : (m s).res with
    | ok a => simp only [hr, ho, mapError_error] at h
    | error x =>
      simp only [hr, ho, mapError_error, false_or] at h
      obtain ⟨rfl, h⟩ := h
      exact ⟨_, h e rfl, herr e rfl⟩

/-- The program that works on a part of the state does there what it does alone. -/
theorem relatedAt_onFst {ρ : Type} {p : ρ} {m : Prog σ ε ω α} {V : α → α → σ × ρ → σ → Prop} {E : σ × ρ → σ → Prop}
    (hV : ∀ a s, V a a (s, p) s) (hE : ∀ s, E (s, p) s) :
    RelatedAt bl V E (onFst m : Prog (σ × ρ) ε ω' α) m (s, p) s := by
  unfold RelatedAt onFst
  cases hr : (m s).res with
  | ok a => exact hV a _
  | error x => exact .inr ⟨rfl, fun _ _ => hE _⟩

end Rules

/-! ## Reading the states -/

/-- Both programs only read their states, and find the same there. -/
def ReadSame (m : Prog σ ε ω α) (m' : Prog τ ε ω' α) (s : σ) (t : τ) : Prop :=
  ∃ r, m s = ⟨r, s, []⟩ ∧ m' t = ⟨r, t, []⟩

section Reading
variable {m : Prog σ ε ω α} {m' : Prog τ ε ω' α} {s : σ} {t : τ}

theorem ReadSame.pure {a : α} : ReadSame (Pure.pure a : Prog σ ε ω α) (Pure.pure a : Prog τ ε ω' α) s t := ⟨_, rfl, rfl⟩

theorem ReadSame.stuck : ReadSame (Prog.stuck : Prog σ ε ω α) (Prog.stuck : Prog τ ε ω' α) s t := ⟨_, rfl, rfl⟩

theorem ReadSame.gets {g : σ → α} {g' : τ → α} (h : g s = g' t) :
    ReadSame (Prog.gets g : Prog σ ε ω α) (Prog.gets g' : Prog τ ε ω' α) s t :=
  ⟨.ok (g s), rfl, by rw [h]; rfl⟩

theorem ReadSame.bind {f : α → Prog σ ε ω β} {f' : α → Prog τ ε ω' β} (h : ReadSame m m' s t)
    (hf : ∀ a, ReadSame (f a) (f' a) s t) : ReadSame (m >>= f) (m' >>= f') s t := by
  obtain ⟨r, hm, hm'⟩ := h
  cases r with
  | error x => exact ⟨_, by rw [bind_of_error (by rw [hm]), hm], by rw [bind_of_error (by rw [hm']), hm']⟩
  | ok a =>
    obtain ⟨r, hf, hf'⟩ := hf a
    exact ⟨r, by rw [bind_of_ok (by rw [hm]), hm, hf]; rfl, by rw [bind_of_ok (by rw [hm']), hm', hf']; rfl⟩

theorem relatedAt_read {bl : Halt ε → Prop} {W : α' → β' → σ → τ → Prop} {E : σ → τ → Prop} {f : α → Prog σ ε ω α'}
    {f' : α → Prog τ ε ω' β'} (h : ReadSame m m' s t) (hE : E s t) (hf : ∀ a, RelatedAt bl W E (f a) (f' a) s t) :
    RelatedAt bl W E (m >>= f) (m' >>= f') s t := by
  obtain ⟨r, hm, hm'⟩ := h
  unfold RelatedAt
  cases r with
  | error x =>
    rw [bind_of_error (by rw [hm]), bind_of_error (by rw [hm'])]
    exact .inr ⟨rfl, fun _ _ => by rw [hm, hm']; exact hE⟩
  | ok a =>
    rw [bind_of_ok (by rw [hm]), bind_of_ok (by rw [hm']), hm, hm']
    exact hf a

end Reading

end Prog
