/-!
# Programs over a state

A `Prog` is run from a state and ends in one of four ways: with a result, with a
reported error, stuck (it did something undefined), or out of fuel. It leaves a
trace of events, which no program can read back: claims about runs talk about it.

`wp` is the weakest precondition, read off one run; its rules are used to prove
what a program keeps. `Sim` relates two programs run side by side; it composes,
so two runs of the same text agree as soon as their primitive steps do.
-/

/-- Why a run stopped without a result. -/
inductive Halt (ε : Type) where
  | err (e : ε)
  | stuck
  | timeout
deriving DecidableEq

/-- The end of a run. -/
structure Run (σ ε ω α : Type) where
  res : Except (Halt ε) α
  state : σ
  trace : List ω

theorem mapError_ok {ε ε' α : Type} {f : ε → ε'} {a : α} : (Except.ok a : Except ε α).mapError f = .ok a := rfl

theorem mapError_error {ε ε' α : Type} {f : ε → ε'} {e : ε} :
    (Except.error e : Except ε α).mapError f = .error (f e) := rfl

/-- The run returns, with this result or error. -/
def Run.Ends {σ ε ω α : Type} (r : Run σ ε ω α) (o : Except ε α) : Prop := r.res = o.mapError Halt.err

theorem Run.Ends.unique {σ ε ω α : Type} {r : Run σ ε ω α} {o o' : Except ε α} (h : r.Ends o) (h' : r.Ends o') :
    o = o' := by
  unfold Run.Ends at h h'
  rw [h] at h'
  cases o <;> cases o' <;> cases h' <;> rfl

def Prog (σ ε ω α : Type) : Type := σ → Run σ ε ω α

namespace Prog

variable {σ τ ε ω α β : Type}

protected def pure (a : α) : Prog σ ε ω α := fun s => ⟨.ok a, s, []⟩

protected def bind (m : Prog σ ε ω α) (f : α → Prog σ ε ω β) : Prog σ ε ω β := fun s =>
  match (m s).res with
  | .ok a => ⟨(f a (m s).state).res, (f a (m s).state).state, (m s).trace ++ (f a (m s).state).trace⟩
  | .error h => ⟨.error h, (m s).state, (m s).trace⟩

instance : Monad (Prog σ ε ω) where
  pure := Prog.pure
  bind := Prog.bind

def fail (e : ε) : Prog σ ε ω α := fun s => ⟨.error (.err e), s, []⟩
def stuck : Prog σ ε ω α := fun s => ⟨.error .stuck, s, []⟩
def timeout : Prog σ ε ω α := fun s => ⟨.error .timeout, s, []⟩
def gets (f : σ → α) : Prog σ ε ω α := fun s => ⟨.ok (f s), s, []⟩
def modify (f : σ → σ) : Prog σ ε ω Unit := fun s => ⟨.ok (), f s, []⟩
def emit (e : ω) : Prog σ ε ω Unit := fun s => ⟨.ok (), s, [e]⟩

/-- When `m` reports an error `e`, go on from the state with `c e`. -/
def onError (m : Prog σ ε ω α) (c : ε → σ → σ) : Prog σ ε ω α := fun s =>
  match (m s).res with
  | .error (.err e) => ⟨.error (.err e), c e (m s).state, (m s).trace⟩
  | _ => m s

/-- Clean up with `c` when `m` reports an error. -/
def onErr (m : Prog σ ε ω α) (c : σ → σ) : Prog σ ε ω α := onError m fun _ => c

/-- Clean up with `c` after `m`, whether `m` returned or reported an error. -/
def andThen (m : Prog σ ε ω α) (c : σ → σ) : Prog σ ε ω α := fun s =>
  match (m s).res with
  | .ok a => ⟨.ok a, c (m s).state, (m s).trace⟩
  | .error (.err e) => ⟨.error (.err e), c (m s).state, (m s).trace⟩
  | .error h => ⟨.error h, (m s).state, (m s).trace⟩

/-- A call of `m` whose status the caller looks at. What `m` did is not part of the
caller's trace. -/
def calling {ω' : Type} (m : Prog σ ε ω α) : Prog σ ε ω' (Except ε α) := fun s =>
  match (m s).res with
  | .ok a => ⟨.ok (.ok a), (m s).state, []⟩
  | .error (.err e) => ⟨.ok (.error e), (m s).state, []⟩
  | .error .stuck => ⟨.error .stuck, (m s).state, []⟩
  | .error .timeout => ⟨.error .timeout, (m s).state, []⟩

/-! ## One step of a run -/

section Steps
variable {f : α → Prog σ ε ω β} {s : σ}

theorem gets_bind_run {g : σ → α} : (gets g >>= f) s = f (g s) s := by
  simp [Bind.bind, Prog.bind, gets]

theorem modify_bind_run {g : σ → σ} {f : Unit → Prog σ ε ω β} : (modify g >>= f) s = f () (g s) := by
  simp [Bind.bind, Prog.bind, Prog.modify]

theorem andThen_res {m : Prog σ ε ω α} {g : σ → σ} : (andThen m g s).res = (m s).res := by
  unfold andThen
  split <;> rename_i h <;> exact h.symm

theorem pure_bind_run {a : α} : ((pure a : Prog σ ε ω α) >>= f) s = f a s := by
  simp [Bind.bind, Prog.bind, Pure.pure, Prog.pure]

instance : LawfulMonad (Prog σ ε ω) := LawfulMonad.mk' _
  (fun m => by
    funext s
    simp only [Functor.map, Prog.bind, Prog.pure, Function.comp]
    cases hr : (m s).res <;> simp [← hr])
  (fun _ _ => funext fun _ => pure_bind_run)
  (fun m f g => by
    funext s
    simp only [Bind.bind, Prog.bind]
    cases (m s).res with
    | error e => rfl
    | ok a => cases hf : (f a (m s).state).res <;> simp [hf])

end Steps

/-! ## What one run ends in -/

/-- How a run is judged: a run whose trace holds an `excused` event is not judged
at all; every event of the others must be `good`; when `safe` holds they must not
get stuck, and when `total` holds they must not run out of fuel. -/
structure Mode (ω : Type) where
  excused : ω → Prop
  good : ω → Prop
  safe : Prop
  total : Prop

/-- Every run is judged, by its events alone where it gets stuck or runs out of fuel. -/
def Mode.noting (good : ω → Prop) : Mode ω := ⟨fun _ => False, good, False, False⟩

/-- Every run is judged, and may get stuck or run out of fuel. -/
def Mode.partly : Mode ω := ⟨fun _ => False, fun _ => True, False, False⟩

/-- Every run is judged, and must end in a result or an error. -/
def Mode.fully : Mode ω := ⟨fun _ => False, fun _ => True, True, True⟩

/-- Every run is judged, and must not run out of fuel. -/
def Mode.ending : Mode ω := ⟨fun _ => False, fun _ => True, False, True⟩

/-- The run, if judged, ends in a result that meets `Q` or in an error that meets
`E`. -/
def Run.Meets (M : Mode ω) (Q : α → σ → Prop) (E : ε → σ → Prop) (r : Run σ ε ω α) : Prop :=
  (∀ e ∈ r.trace, ¬ M.excused e) →
    (∀ e ∈ r.trace, M.good e) ∧
      match r.res with
      | .ok a => Q a r.state
      | .error (.err e) => E e r.state
      | .error .stuck => ¬ M.safe
      | .error .timeout => ¬ M.total

/-- Weakest precondition: the run of `m` from `s` meets `Q` and `E`. -/
def wp (M : Mode ω) (m : Prog σ ε ω α) (s : σ) (Q : α → σ → Prop) (E : ε → σ → Prop) : Prop :=
  Run.Meets M Q E (m s)

section Rules
variable {M : Mode ω} {m : Prog σ ε ω α} {f : α → Prog σ ε ω β} {c : σ → σ} {s : σ}
  {Q Q' : α → σ → Prop} {E E' : ε → σ → Prop} {P : β → σ → Prop}

theorem wp_pure {a : α} (h : Q a s) : wp M (pure a : Prog σ ε ω α) s Q E :=
  fun _ => ⟨by simp [Pure.pure, Prog.pure], h⟩

theorem wp_fail {e : ε} (h : E e s) : wp M (fail e : Prog σ ε ω α) s Q E :=
  fun _ => ⟨by simp [fail], h⟩

theorem wp_stuck (h : ¬ M.safe) : wp M (stuck : Prog σ ε ω α) s Q E :=
  fun _ => ⟨by simp [stuck], h⟩

theorem wp_timeout (h : ¬ M.total) : wp M (timeout : Prog σ ε ω α) s Q E :=
  fun _ => ⟨by simp [timeout], h⟩

theorem wp_gets {g : σ → α} (h : Q (g s) s) : wp M (gets g : Prog σ ε ω α) s Q E :=
  fun _ => ⟨by simp [gets], h⟩

theorem wp_modify {g : σ → σ} {Q : Unit → σ → Prop} (h : Q () (g s)) :
    wp M (modify g : Prog σ ε ω Unit) s Q E :=
  fun _ => ⟨by simp [modify], h⟩

theorem wp_emit {e : ω} {Q : Unit → σ → Prop} (h : ¬ M.excused e → M.good e ∧ Q () s) :
    wp M (emit e : Prog σ ε ω Unit) s Q E := by
  intro hx
  simp only [emit, List.mem_singleton, forall_eq] at hx ⊢
  exact h hx

theorem wp_bind (h : wp M m s (fun a t => wp M (f a) t P E) E) : wp M (m >>= f) s P E := by
  unfold wp Run.Meets at h ⊢
  simp only [Bind.bind, Prog.bind]
  cases hr : (m s).res with
  | error e => rw [hr] at h; cases e <;> simpa using h
  | ok a =>
    rw [hr] at h
    intro hx
    simp only [List.mem_append] at hx ⊢
    obtain ⟨hg, hk⟩ := h (fun e he => hx e (.inl he))
    obtain ⟨hg', hk'⟩ := hk (fun e he => hx e (.inr he))
    exact ⟨fun e he => he.elim (hg e) (hg' e), hk'⟩

theorem wp_mono (h : wp M m s Q E) (hQ : ∀ a t, Q a t → Q' a t) (hE : ∀ e t, E e t → E' e t) :
    wp M m s Q' E' := by
  intro hx
  obtain ⟨hg, hk⟩ := h hx
  refine ⟨hg, ?_⟩
  split <;> rename_i hr <;> rw [hr] at hk
  · exact hQ _ _ hk
  · exact hE _ _ hk
  · exact hk
  · exact hk

theorem wp_seq (h : wp M m s Q E) (hk : ∀ a t, Q a t → wp M (f a) t P E) : wp M (m >>= f) s P E :=
  wp_bind (wp_mono h hk (fun _ _ h => h))

theorem wp_ite {b : Prop} [Decidable b] {m' : Prog σ ε ω α} (h : b → wp M m s Q E) (h' : ¬ b → wp M m' s Q E) :
    wp M (if b then m else m') s Q E := by
  split
  · exact h ‹_›
  · exact h' ‹_›

/-- A run that is judged more strictly. -/
theorem wp_weaken {M' : Mode ω} (h : wp M m s Q E) (hx : ∀ e, M.excused e → M'.excused e)
    (hg : ∀ e, M.good e → M'.good e) (hs : M'.safe → M.safe) (ht : M'.total → M.total) : wp M' m s Q E := by
  intro hn
  obtain ⟨hgood, hk⟩ := h fun e he hxe => hn e he (hx e hxe)
  refine ⟨fun e he => hg e (hgood e he), ?_⟩
  split <;> rename_i hr <;> rw [hr] at hk
  · exact hk
  · exact hk
  · exact fun h => hk (hs h)
  · exact fun h => hk (ht h)

/-- What holds of every run holds of the judged ones too. -/
theorem wp_and {good : ω → Prop} (h : wp (Mode.noting good) m s Q E) (h' : wp M m s Q' E') :
    wp M m s (fun a t => Q a t ∧ Q' a t) (fun e t => E e t ∧ E' e t) := by
  intro hx
  obtain ⟨hg, hk⟩ := h' hx
  have hq := (h fun _ _ => id).2
  refine ⟨hg, ?_⟩
  split <;> rename_i hr <;> rw [hr] at hk hq
  · exact ⟨hq, hk⟩
  · exact ⟨hq, hk⟩
  · exact hk
  · exact hk

theorem wp_onError {c : ε → σ → σ} (h : wp M m s Q (fun e t => E e (c e t))) : wp M (onError m c) s Q E := by
  unfold wp Run.Meets at h ⊢
  unfold onError
  cases hr : (m s).res with
  | ok a => simpa [hr] using h
  | error e => cases e <;> simpa [hr] using h

theorem wp_onErr (h : wp M m s Q (fun e t => E e (c t))) : wp M (onErr m c) s Q E := wp_onError h

theorem wp_andThen (h : wp M m s (fun a t => Q a (c t)) (fun e t => E e (c t))) :
    wp M (andThen m c) s Q E := by
  unfold wp Run.Meets at h ⊢
  unfold andThen
  cases hr : (m s).res with
  | ok a => simpa [hr] using h
  | error e => cases e <;> simpa [hr] using h

/-- A run that must succeed returns a result that meets `Q`. -/
theorem ok_of_wp_fully (h : wp Mode.fully m s Q (fun _ _ => False)) :
    ∃ a, (m s).res = .ok a ∧ Q a (m s).state := by
  have hk := (h (by simp [Mode.fully])).2
  revert hk
  split
  · rename_i a hr
    exact fun hq => ⟨a, hr, hq⟩
  · exact False.elim
  · exact fun hn => absurd trivial hn
  · exact fun hn => absurd trivial hn

/-- A run that must end returns a result that meets `Q`, or an error that meets `E`. -/
theorem ends_of_wp_fully (h : wp Mode.fully m s Q E) :
    ∃ r : Except ε α, (m s).Ends r ∧ (∀ a, r = .ok a → Q a (m s).state) ∧ ∀ e, r = .error e → E e (m s).state := by
  have hk := (h (by simp [Mode.fully])).2
  revert hk
  split
  · rename_i a hr
    refine fun hq => ⟨.ok a, hr, ?_, nofun⟩
    rintro _ ⟨⟩
    exact hq
  · rename_i e hr
    refine fun he => ⟨.error e, hr, nofun, ?_⟩
    rintro _ ⟨⟩
    exact he
  · exact fun hn => absurd trivial hn
  · exact fun hn => absurd trivial hn

end Rules

/-! ## Triples -/

/-- From every state that meets `P`, the run of `m` meets `Q` and `E`. -/
def Triple (M : Mode ω) (P : σ → Prop) (m : Prog σ ε ω α) (Q : α → σ → Prop) (E : ε → σ → Prop) : Prop :=
  ∀ s, P s → wp M m s Q E

/-- `m` only reads the state, reports no error and leaves no trace. -/
def Reads (m : Prog σ ε ω α) : Prop :=
  ∀ s, wp (Mode.noting fun _ => False) m s (fun _ t => t = s) (fun _ _ => False)

section TripleRules
variable {M : Mode ω} {m : Prog σ ε ω α} {f : α → Prog σ ε ω β} {c : σ → σ} {P P' : σ → Prop}
  {Q Q' : α → σ → Prop} {E E' : ε → σ → Prop} {U : β → σ → Prop}

theorem Triple.pure {a : α} (h : ∀ s, P s → Q a s) : Triple M P (Pure.pure a : Prog σ ε ω α) Q E :=
  fun s hs => wp_pure (h s hs)

theorem Triple.fail {e : ε} (h : ∀ s, P s → E e s) : Triple M P (Prog.fail e : Prog σ ε ω α) Q E :=
  fun s hs => wp_fail (h s hs)

theorem Triple.stuck (h : ∀ s, P s → ¬ M.safe) : Triple M P (Prog.stuck : Prog σ ε ω α) Q E :=
  fun s hs => wp_stuck (h s hs)

theorem Triple.timeout (h : ∀ s, P s → ¬ M.total) : Triple M P (Prog.timeout : Prog σ ε ω α) Q E :=
  fun s hs => wp_timeout (h s hs)

theorem Triple.gets {g : σ → α} (h : ∀ s, P s → Q (g s) s) : Triple M P (Prog.gets g : Prog σ ε ω α) Q E :=
  fun s hs => wp_gets (h s hs)

theorem Triple.modify {g : σ → σ} {Q : Unit → σ → Prop} (h : ∀ s, P s → Q () (g s)) :
    Triple M P (Prog.modify g : Prog σ ε ω Unit) Q E :=
  fun s hs => wp_modify (h s hs)

theorem Triple.emit {e : ω} {Q : Unit → σ → Prop} (h : ∀ s, P s → ¬ M.excused e → M.good e ∧ Q () s) :
    Triple M P (Prog.emit e : Prog σ ε ω Unit) Q E :=
  fun s hs => wp_emit (h s hs)

theorem Triple.bind (h : Triple M P m Q E) (hk : ∀ a, Triple M (Q a) (f a) U E) : Triple M P (m >>= f) U E :=
  fun s hs => wp_bind (wp_mono (h s hs) (fun a t ht => hk a t ht) (fun _ _ h => h))

/-- The first step keeps what holds. -/
theorem Triple.seq (h : Triple M P m (fun _ => P) E) (hk : ∀ a, Triple M P (f a) U E) : Triple M P (m >>= f) U E :=
  h.bind hk

/-- The first step keeps what holds, and its result is known to satisfy `p`. -/
theorem Triple.fact {p : α → Prop} (h : Triple M P m (fun a t => p a ∧ P t) E)
    (hk : ∀ a, p a → Triple M P (f a) U E) : Triple M P (m >>= f) U E :=
  h.bind fun a s hs => hk a hs.1 s hs.2

theorem Triple.conseq (h : Triple M P' m Q' E') (hP : ∀ s, P s → P' s) (hQ : ∀ a t, Q' a t → Q a t)
    (hE : ∀ e t, E' e t → E e t) : Triple M P m Q E :=
  fun s hs => wp_mono (h s (hP s hs)) hQ hE

theorem Triple.ite {b : Prop} [Decidable b] {m' : Prog σ ε ω α} (h : b → Triple M P m Q E)
    (h' : ¬ b → Triple M P m' Q E) : Triple M P (if b then m else m') Q E := by
  split
  · exact h ‹_›
  · exact h' ‹_›

theorem Triple.onError {c : ε → σ → σ} (h : Triple M P m Q (fun e t => E e (c e t))) :
    Triple M P (Prog.onError m c) Q E :=
  fun s hs => wp_onError (h s hs)

theorem Triple.onErr (h : Triple M P m Q (fun e t => E e (c t))) : Triple M P (Prog.onErr m c) Q E :=
  fun s hs => wp_onErr (h s hs)

theorem Triple.andThen (h : Triple M P m (fun a t => Q a (c t)) (fun e t => E e (c t))) :
    Triple M P (Prog.andThen m c) Q E :=
  fun s hs => wp_andThen (h s hs)

/-- What only reads keeps what holds. -/
theorem Reads.triple {good : ω → Prop} (h : Reads m) : Triple (Mode.noting good) P m (fun _ => P) E :=
  fun s hs => wp_weaken (wp_mono (h s) (fun _ _ ht => ht ▸ hs) (fun _ _ h => h.elim))
    (fun _ h => h) (fun _ h => h.elim) id id

theorem Reads.pure {a : α} : Reads (Pure.pure a : Prog σ ε ω α) := fun _ => wp_pure rfl

theorem Reads.stuck : Reads (Prog.stuck : Prog σ ε ω α) := fun _ => wp_stuck id

theorem Reads.timeout : Reads (Prog.timeout : Prog σ ε ω α) := fun _ => wp_timeout id

theorem Reads.gets {g : σ → α} : Reads (Prog.gets g : Prog σ ε ω α) := fun _ => wp_gets rfl

theorem Reads.bind (h : Reads m) (hk : ∀ a, Reads (f a)) : Reads (m >>= f) := by
  intro s
  refine wp_bind (wp_mono (h s) ?_ (fun _ _ h => h))
  rintro a t rfl
  exact hk a t

theorem Reads.ite {b : Prop} [Decidable b] {m' : Prog σ ε ω α} (h : Reads m) (h' : Reads m') :
    Reads (if b then m else m') := by
  split
  · exact h
  · exact h'

end TripleRules

/-! ## Traces -/

/-- Every run of `m` leads from its first state, along its trace, to its last as `T`
says. -/
def Traced (T : σ → List ω → σ → Prop) (m : Prog σ ε ω α) : Prop := ∀ s, T s (m s).trace (m s).state

section TraceRules
variable {T T₁ T₂ : σ → List ω → σ → Prop} {m : Prog σ ε ω α} {f : α → Prog σ ε ω β} {s : σ}

theorem Traced.pure {a : α} (h : ∀ s, T s [] s) : Traced T (Pure.pure a : Prog σ ε ω α) := h

theorem Traced.stuck (h : ∀ s, T s [] s) : Traced T (Prog.stuck : Prog σ ε ω α) := h

theorem Traced.timeout (h : ∀ s, T s [] s) : Traced T (Prog.timeout : Prog σ ε ω α) := h

theorem Traced.gets {g : σ → α} (h : ∀ s, T s [] s) : Traced T (Prog.gets g : Prog σ ε ω α) := h

theorem Traced.modify {g : σ → σ} (h : ∀ s, T s [] (g s)) : Traced T (Prog.modify g : Prog σ ε ω Unit) := h

theorem Traced.bind (h : Traced T₁ m) (hk : ∀ a, Traced T₂ (f a)) (hstop : ∀ s k t, T₁ s k t → T s k t)
    (htrans : ∀ s k t l u, T₁ s k t → T₂ t l u → T s (k ++ l) u) : Traced T (m >>= f) := by
  intro s
  simp only [Bind.bind, Prog.bind]
  split
  · exact htrans _ _ _ _ _ (h s) (hk _ _)
  · exact hstop _ _ _ (h s)

end TraceRules

/-! ## Two runs side by side -/

/-- The two runs end alike: in the same result or for the same reason, in related
states. A left run that stops for a reason in `bl` is not compared, nor is a right
run that stops for a reason in `br`. -/
def Run.Sim {ω' : Type} (bl br : Halt ε → Prop) (R : σ → τ → Prop) (r : Run σ ε ω α) (r' : Run τ ε ω' α) : Prop :=
  match r.res, r'.res with
  | .ok a, .ok b => a = b ∧ R r.state r'.state
  | .error h, .error h' => bl h ∨ br h' ∨ (h = h' ∧ R r.state r'.state)
  | .error h, .ok _ => bl h
  | .ok _, .error h' => br h'

/-- Run from `s` and from `t`, the two programs end alike. -/
def SimAt {ω' : Type} (bl br : Halt ε → Prop) (R : σ → τ → Prop) (m : Prog σ ε ω α) (m' : Prog τ ε ω' α)
    (s : σ) (t : τ) : Prop :=
  Run.Sim bl br R (m s) (m' t)

/-- Run from related states, the two programs end alike. -/
def Sim {ω' : Type} (bl br : Halt ε → Prop) (R : σ → τ → Prop) (m : Prog σ ε ω α) (m' : Prog τ ε ω' α) : Prop :=
  ∀ s t, R s t → SimAt bl br R m m' s t

section SimRules
variable {ω' : Type} {bl br : Halt ε → Prop} {R : σ → τ → Prop} {m : Prog σ ε ω α} {m' : Prog τ ε ω' α}
  {f : α → Prog σ ε ω β} {f' : α → Prog τ ε ω' β} {s : σ} {t : τ}

theorem simAt_pure {a : α} (h : R s t) : SimAt bl br R (pure a : Prog σ ε ω α) (pure a : Prog τ ε ω' α) s t :=
  ⟨rfl, h⟩

theorem simAt_fail {e : ε} (h : R s t) :
    SimAt bl br R (fail e : Prog σ ε ω α) (fail e : Prog τ ε ω' α) s t :=
  .inr (.inr ⟨rfl, h⟩)

theorem simAt_stuck {m' : Prog τ ε ω' α} (hbl : bl .stuck) : SimAt bl br R (stuck : Prog σ ε ω α) m' s t := by
  unfold SimAt Run.Sim
  cases (m' t).res <;> simp [stuck, hbl]

/-- A left run that stops for a reason in `bl`. -/
theorem simAt_of_left {x : Halt ε} (hr : (m s).res = .error x) (hbl : bl x) : SimAt bl br R m m' s t := by
  unfold SimAt Run.Sim
  rw [hr]
  cases (m' t).res with
  | ok _ => exact hbl
  | error _ => exact .inl hbl

/-- The compared runs of `m` and `m'` may be used with what `m` and `m'` are known to
end in. -/
theorem simAt_bind {Q : α → σ → Prop} {Q' : α → τ → Prop} {E E' : ε → _ → Prop} {good : ω → Prop} {good' : ω' → Prop}
    (h : SimAt bl br R m m' s t) (hw : wp (Mode.noting good) m s Q E) (hw' : wp (Mode.noting good') m' t Q' E')
    (hk : ∀ a s' t', R s' t' → Q a s' → Q' a t' → SimAt bl br R (f a) (f' a) s' t') :
    SimAt bl br R (m >>= f) (m' >>= f') s t := by
  unfold SimAt Run.Sim at h ⊢
  have hq := (hw fun _ _ => id).2
  have hq' := (hw' fun _ _ => id).2
  simp only [Bind.bind, Prog.bind]
  cases hr : (m s).res <;> cases hr' : (m' t).res <;> rw [hr] at h hq <;> rw [hr'] at h hq'
  · exact h
  · split <;> rename_i h1 h2 <;> cases h1 <;> first | exact .inl h | exact h
  · split <;> rename_i h1 h2 <;> cases h2 <;> first | exact .inr (.inl h) | exact h
  · obtain ⟨rfl, hR⟩ := h
    exact hk _ _ _ hR hq hq'

theorem wp_true (m : Prog σ ε ω α) (s : σ) : wp Mode.partly m s (fun _ _ => True) (fun _ _ => True) := by
  intro _
  refine ⟨fun _ _ => trivial, ?_⟩
  split <;> simp [Mode.partly]

/-- What is known of the left run alone. -/
theorem simAt_seq {Q : α → σ → Prop} {E : ε → σ → Prop} {good : ω → Prop} (h : SimAt bl br R m m' s t)
    (hw : wp (Mode.noting good) m s Q E)
    (hk : ∀ a s' t', R s' t' → Q a s' → SimAt bl br R (f a) (f' a) s' t') : SimAt bl br R (m >>= f) (m' >>= f') s t :=
  simAt_bind h hw (wp_true m' t) fun a s' t' hR hq _ => hk a s' t' hR hq

/-- A step that only the left run takes; it may get stuck, if that is not compared. -/
theorem simAt_left {m' : Prog τ ε ω' β} {Q : α → σ → Prop} (hbl : bl .stuck)
    (h : wp Mode.ending m s Q (fun _ _ => False)) (hk : ∀ a s', Q a s' → SimAt bl br R (f a) m' s' t) :
    SimAt bl br R (m >>= f) m' s t := by
  have hq := (h (by simp [Mode.ending])).2
  unfold SimAt Run.Sim at hk ⊢
  simp only [Bind.bind, Prog.bind]
  cases hr : (m s).res with
  | ok a =>
    rw [hr] at hq
    exact hk a _ hq
  | error e =>
    rw [hr] at hq
    cases e with
    | err e => exact hq.elim
    | stuck => cases (m' t).res <;> simp [hbl]
    | timeout => exact absurd trivial hq

/-- Two runs that must succeed. -/
theorem simAt_of_fully {Q : α → σ → Prop} {Q' : α → τ → Prop} (h : wp Mode.fully m s Q (fun _ _ => False))
    (h' : wp Mode.fully m' t Q' (fun _ _ => False)) (hR : ∀ a b s' t', Q a s' → Q' b t' → a = b ∧ R s' t') :
    SimAt bl br R m m' s t := by
  obtain ⟨a, ha, hq⟩ := ok_of_wp_fully h
  obtain ⟨b, hb, hq'⟩ := ok_of_wp_fully h'
  unfold SimAt Run.Sim
  rw [ha, hb]
  exact hR a b _ _ hq hq'

/-- A step that only the left run takes, and that must succeed. -/
theorem simAt_skip {m' : Prog τ ε ω' β} {Q : α → σ → Prop} (h : wp Mode.fully m s Q (fun _ _ => False))
    (hk : ∀ a s', Q a s' → SimAt bl br R (f a) m' s' t) : SimAt bl br R (m >>= f) m' s t := by
  obtain ⟨a, ha, hq⟩ := ok_of_wp_fully h
  have hk := hk a _ hq
  unfold SimAt at hk ⊢
  unfold Run.Sim at hk ⊢
  simp only [Bind.bind, Prog.bind, ha]
  exact hk

theorem simAt_ite {b : Prop} [Decidable b] {n : Prog σ ε ω α} {n' : Prog τ ε ω' α} (h : b → SimAt bl br R m m' s t)
    (h' : ¬ b → SimAt bl br R n n' s t) : SimAt bl br R (if b then m else n) (if b then m' else n') s t := by
  split
  · exact h ‹_›
  · exact h' ‹_›

theorem Sim.bind (h : Sim bl br R m m') (hk : ∀ a, Sim bl br R (f a) (f' a)) :
    Sim bl br R (m >>= f) (m' >>= f') := fun s t hR =>
  simAt_bind (h s t hR) (wp_true m s) (wp_true m' t) (fun a s' t' hR' _ _ => hk a s' t' hR')

theorem Sim.pure (a : α) : Sim bl br R (Pure.pure a : Prog σ ε ω α) (Pure.pure a : Prog τ ε ω' α) :=
  fun _ _ h => simAt_pure h

theorem Sim.fail (e : ε) : Sim bl br R (Prog.fail e : Prog σ ε ω α) (Prog.fail e : Prog τ ε ω' α) :=
  fun _ _ h => simAt_fail h

theorem Sim.stuck : Sim bl br R (Prog.stuck : Prog σ ε ω α) (Prog.stuck : Prog τ ε ω' α) :=
  fun _ _ h => .inr (.inr ⟨rfl, h⟩)

theorem Sim.timeout : Sim bl br R (Prog.timeout : Prog σ ε ω α) (Prog.timeout : Prog τ ε ω' α) :=
  fun _ _ h => .inr (.inr ⟨rfl, h⟩)

theorem Sim.gets {g : σ → α} {g' : τ → α} (h : ∀ s t, R s t → g s = g' t) :
    Sim bl br R (Prog.gets g : Prog σ ε ω α) (Prog.gets g' : Prog τ ε ω' α) :=
  fun s t hR => ⟨h s t hR, hR⟩

theorem Sim.ite {b : Prop} [Decidable b] {n : Prog σ ε ω α} {n' : Prog τ ε ω' α} (h : b → Sim bl br R m m')
    (h' : ¬ b → Sim bl br R n n') : Sim bl br R (if b then m else n) (if b then m' else n') := by
  split
  · exact h ‹_›
  · exact h' ‹_›

/-- Where fewer runs are compared. -/
theorem Sim.weaken {bl' : Halt ε → Prop} (h : Sim bl br R m m') (hbl : ∀ x, bl x → bl' x) : Sim bl' br R m m' := by
  intro s t hR
  have hm := h s t hR
  unfold SimAt Run.Sim at hm ⊢
  cases hr : (m s).res <;> cases hr' : (m' t).res <;> simp only [hr, hr'] at hm ⊢
  · exact hm.imp_left (hbl _)
  · exact hbl _ hm
  · exact hm
  · exact hm

/-- Two readings of the state that need not agree. -/
theorem Sim.gets_bind {γ : Type} {g : σ → α} {g' : τ → γ} {f' : γ → Prog τ ε ω' β}
    (h : ∀ s t, R s t → SimAt bl br R (f (g s)) (f' (g' t)) s t) :
    Sim bl br R (Prog.gets g >>= f) (Prog.gets g' >>= f') := by
  intro s t hR
  unfold SimAt
  rw [gets_bind_run, gets_bind_run]
  exact h s t hR

theorem Sim.modify {g : σ → σ} {g' : τ → τ} (h : ∀ s t, R s t → R (g s) (g' t)) :
    Sim bl br R (Prog.modify g : Prog σ ε ω Unit) (Prog.modify g' : Prog τ ε ω' Unit) :=
  fun s t hR => ⟨rfl, h s t hR⟩

theorem Sim.emit (e : ω) (e' : ω') : Sim bl br R (Prog.emit e : Prog σ ε ω Unit) (Prog.emit e' : Prog τ ε ω' Unit) :=
  fun _ _ hR => ⟨rfl, hR⟩

theorem SimAt.onError {c : ε → σ → σ} {c' : ε → τ → τ} (h : SimAt bl br R m m' s t)
    (hc : ∀ e s t, R s t → R (c e s) (c' e t)) : SimAt bl br R (Prog.onError m c) (Prog.onError m' c') s t := by
  unfold SimAt Run.Sim Prog.onError at *
  cases hr : (m s).res <;> cases hr' : (m' t).res <;> simp only [hr, hr'] at h ⊢
  · rename_i x y
    cases x <;> cases y <;> simp only [hr, hr'] at h ⊢
    · refine h.imp id (Or.imp id ?_)
      rintro ⟨⟨⟩, hR⟩
      exact ⟨rfl, hc _ _ _ hR⟩
    all_goals simpa using h
  · rename_i x y; cases x <;> simpa [hr, hr'] using h
  · rename_i x y; cases y <;> simpa [hr, hr'] using h
  · exact h

theorem Sim.onError {c : ε → σ → σ} {c' : ε → τ → τ} (h : Sim bl br R m m') (hc : ∀ e s t, R s t → R (c e s) (c' e t)) :
    Sim bl br R (Prog.onError m c) (Prog.onError m' c') :=
  fun s t hR => (h s t hR).onError hc

theorem Sim.onErr {c : σ → σ} {c' : τ → τ} (h : Sim bl br R m m') (hc : ∀ s t, R s t → R (c s) (c' t)) :
    Sim bl br R (Prog.onErr m c) (Prog.onErr m' c') :=
  h.onError fun _ => hc

theorem SimAt.andThen {c : σ → σ} {c' : τ → τ} (h : SimAt bl br R m m' s t) (hc : ∀ s t, R s t → R (c s) (c' t)) :
    SimAt bl br R (Prog.andThen m c) (Prog.andThen m' c') s t := by
  unfold SimAt Run.Sim Prog.andThen at *
  cases hr : (m s).res <;> cases hr' : (m' t).res <;> simp only [hr, hr'] at h ⊢
  · rename_i x y
    cases x <;> cases y <;>
      first | exact h | exact h.imp id (Or.imp id (And.imp id (hc _ _))) | simpa using h
  · rename_i x y; cases x <;> simpa [hr, hr'] using h
  · rename_i x y; cases y <;> simpa [hr, hr'] using h
  · exact ⟨h.1, hc _ _ h.2⟩

theorem Sim.andThen {c : σ → σ} {c' : τ → τ} (h : Sim bl br R m m') (hc : ∀ s t, R s t → R (c s) (c' t)) :
    Sim bl br R (Prog.andThen m c) (Prog.andThen m' c') :=
  fun s t hR => (h s t hR).andThen hc

theorem onError_id {m : Prog σ ε ω α} : (Prog.onError m fun _ s => s) = m := by
  funext s
  unfold Prog.onError
  split
  · rename_i h
    rw [← h]
  · rfl

theorem andThen_id {m : Prog σ ε ω α} : (Prog.andThen m fun s => s) = m := by
  funext s
  unfold Prog.andThen
  split <;> rename_i h <;> rw [← h]

/-! Clean-ups that only the left run does. -/

theorem SimAt.onErr_left {c : σ → σ} (h : SimAt bl br R m m' s t) (hc : ∀ s t, R s t → R (c s) t) :
    SimAt bl br R (Prog.onErr m c) m' s t := by
  have h := h.onError (fun _ => hc)
  rwa [onError_id] at h

theorem SimAt.andThen_left {c : σ → σ} (h : SimAt bl br R m m' s t) (hc : ∀ s t, R s t → R (c s) t) :
    SimAt bl br R (Prog.andThen m c) m' s t := by
  have h := h.andThen hc
  rwa [andThen_id] at h

theorem Sim.onError_left {c : ε → σ → σ} (h : Sim bl br R m m') (hc : ∀ e s t, R s t → R (c e s) t) :
    Sim bl br R (Prog.onError m c) m' := by
  have h := h.onError hc
  rwa [onError_id] at h

theorem Sim.onErr_left {c : σ → σ} (h : Sim bl br R m m') (hc : ∀ s t, R s t → R (c s) t) :
    Sim bl br R (Prog.onErr m c) m' :=
  fun s t hR => (h s t hR).onErr_left hc

theorem Sim.andThen_left {c : σ → σ} (h : Sim bl br R m m') (hc : ∀ s t, R s t → R (c s) t) :
    Sim bl br R (Prog.andThen m c) m' :=
  fun s t hR => (h s t hR).andThen_left hc

/-- The clean-up may change what relates the states, where runs that get stuck or run out
of fuel, and so are not cleaned up, are not compared. -/
theorem SimAt.leave {R' : σ → τ → Prop} {c : σ → σ} (h : SimAt bl br R m m' s t) (hc : ∀ s t, R s t → R' (c s) t)
    (hstuck : bl .stuck ∨ br .stuck) (htime : bl .timeout ∨ br .timeout) :
    SimAt bl br R' (Prog.andThen m c) m' s t := by
  unfold SimAt Run.Sim Prog.andThen at *
  cases hr : (m s).res <;> cases hr' : (m' t).res <;> simp only [hr, hr'] at h ⊢
  · rename_i x y
    cases x <;> simp only
    · exact h.imp id (Or.imp id (And.imp id (hc _ _)))
    · rcases h with h | h | ⟨rfl, -⟩
      · exact .inl h
      · exact .inr (.inl h)
      · exact hstuck.imp id .inl
    · rcases h with h | h | ⟨rfl, -⟩
      · exact .inl h
      · exact .inr (.inl h)
      · exact htime.imp id .inl
  · rename_i x y; cases x <;> simpa using h
  · exact h
  · exact ⟨h.1, hc _ _ h.2⟩

/-- What the left run returns, if it is compared, the right one returns. -/
theorem SimAt.ends {o : Except ε α} (h : SimAt bl br R m m' s t) (ho : (m s).Ends o)
    (hbl : ∀ e, o = .error e → ¬ bl (.err e)) (hbr : ∀ x, ¬ br x) : (m' t).Ends o ∧ R (m s).state (m' t).state := by
  unfold SimAt Run.Sim at h
  unfold Run.Ends at ho ⊢
  cases o with
  | ok a =>
    rw [ho] at h
    cases hr : (m' t).res <;> simp only [hr, mapError_ok] at h ⊢
    · exact absurd h (hbr _)
    · exact ⟨by rw [h.1], h.2⟩
  | error e =>
    rw [ho] at h
    cases hr : (m' t).res <;> simp only [hr, mapError_error] at h ⊢
    · rcases h with h | h | ⟨rfl, h⟩
      · exact absurd h (hbl e rfl)
      · exact absurd h (hbr _)
      · exact ⟨rfl, h⟩
    · exact absurd h (hbl e rfl)

/-- And the other way round. -/
theorem SimAt.ends_left {o : Except ε α} (h : SimAt bl br R m m' s t) (ho : (m' t).Ends o) (hbl : ∀ x, ¬ bl x)
    (hbr : ∀ e, o = .error e → ¬ br (.err e)) : (m s).Ends o ∧ R (m s).state (m' t).state := by
  unfold SimAt Run.Sim at h
  unfold Run.Ends at ho ⊢
  cases o with
  | ok a =>
    rw [ho] at h
    cases hr : (m s).res <;> simp only [hr, mapError_ok] at h ⊢
    · exact absurd h (hbl _)
    · exact ⟨by rw [h.1], h.2⟩
  | error e =>
    rw [ho] at h
    cases hr : (m s).res <;> simp only [hr, mapError_error] at h ⊢
    · rcases h with h | h | ⟨rfl, h⟩
      · exact absurd h (hbl _)
      · exact absurd h (hbr e rfl)
      · exact ⟨rfl, h⟩
    · exact absurd h (hbr e rfl)

/-- Where every run is compared, the two ends are the same. -/
theorem SimAt.same (h : SimAt (fun _ => False) (fun _ => False) R m m' s t) :
    (m' t).res = (m s).res ∧ R (m s).state (m' t).state := by
  unfold SimAt Run.Sim at h
  cases hr : (m s).res <;> cases hr' : (m' t).res <;> simp only [hr, hr', false_or] at h ⊢
  · exact ⟨by rw [h.1], h.2⟩
  · exact ⟨by rw [h.1], h.2⟩

/-- What follows an error does not matter. -/
theorem Sim.then_fail {e : ε} {n : Prog σ ε ω β} {g : β → Prog σ ε ω α}
    (h : Sim bl br R n (Prog.fail e : Prog τ ε ω' β)) :
    Sim bl br R (n >>= g) (Prog.fail e : Prog τ ε ω' α) := by
  intro s t hR
  have h := h s t hR
  unfold SimAt Run.Sim at *
  simp only [Bind.bind, Prog.bind]
  cases hr : (n s).res <;> simp only [hr, Prog.fail] at h ⊢
  · exact h
  · rename_i a
    cases (g a (n s).state).res with
    | error _ => exact .inr (.inl h)
    | ok _ => exact h

end SimRules

/-! ## A left run that stops part way -/

/-- Run from `s` and from `t`, the two programs end alike, if from the end of the left
one the right one goes on by `g`. -/
def SimToAt {ω' γ : Type} (bl br : Halt ε → Prop) (R : σ → τ → Prop) (g : γ → Prog τ ε ω' β) (m : Prog σ ε ω γ)
    (m' : Prog τ ε ω' β) (s : σ) (t : τ) : Prop :=
  match (m s).res with
  | .ok a => (∃ t', R (m s).state t' ∧ (m' t).res = (g a t').res ∧ (m' t).state = (g a t').state) ∨
      ∃ h, br h ∧ (m' t).res = .error h
  | .error h => bl h ∨ ∃ h', (m' t).res = .error h' ∧ (br h' ∨ (h = h' ∧ R (m s).state (m' t).state))

def SimTo {ω' γ : Type} (bl br : Halt ε → Prop) (R : σ → τ → Prop) (g : γ → Prog τ ε ω' β) (m : Prog σ ε ω γ)
    (m' : Prog τ ε ω' β) : Prop :=
  ∀ s t, R s t → SimToAt bl br R g m m' s t

section SimToRules
variable {ω' γ : Type} {bl br : Halt ε → Prop} {R : σ → τ → Prop} {g : γ → Prog τ ε ω' β} {m : Prog σ ε ω γ}
  {m' : Prog τ ε ω' β} {n : Prog σ ε ω α} {n' : Prog τ ε ω' α} {f : α → Prog σ ε ω γ} {f' : α → Prog τ ε ω' β}
  {c : σ → σ} {s : σ} {t : τ}

/-- Here the left run stops. -/
theorem SimTo.pure {a : γ} (h : m' = g a) : SimTo bl br R g (Pure.pure a : Prog σ ε ω γ) m' := by
  intro s t hR
  exact .inl ⟨t, hR, by rw [h], by rw [h]⟩

theorem SimTo.of_fail {e : ε} (h : Sim bl br R m (Prog.fail e : Prog τ ε ω' γ)) :
    SimTo bl br R g m (Prog.fail e : Prog τ ε ω' β) := by
  intro s t hR
  have h := h s t hR
  unfold SimAt Run.Sim at h
  unfold SimToAt
  cases hr : (m s).res <;> simp only [hr, Prog.fail] at h ⊢
  · exact h.imp_right fun h => ⟨_, rfl, h⟩
  · exact .inr ⟨_, h, rfl⟩

theorem SimTo.timeout : SimTo bl br R g (Prog.timeout : Prog σ ε ω γ) (Prog.timeout : Prog τ ε ω' β) :=
  fun _ _ hR => .inr ⟨_, rfl, .inr ⟨rfl, hR⟩⟩

theorem SimTo.bind (h : Sim bl br R n n') (hk : ∀ a, SimTo bl br R g (f a) (f' a)) :
    SimTo bl br R g (n >>= f) (n' >>= f') := by
  intro s t hR
  have h := h s t hR
  unfold SimAt Run.Sim at h
  unfold SimToAt
  simp only [Bind.bind, Prog.bind]
  cases hr : (n s).res <;> cases hr' : (n' t).res <;> simp only [hr, hr'] at h ⊢
  · rcases h with h | h | ⟨rfl, h⟩
    · exact .inl h
    · exact .inr ⟨_, rfl, .inl h⟩
    · exact .inr ⟨_, rfl, .inr ⟨rfl, h⟩⟩
  · exact .inl h
  · rename_i a e
    cases (f a (n s).state).res with
    | error _ => exact .inr ⟨e, rfl, .inl h⟩
    | ok b => exact .inr ⟨e, h, rfl⟩
  · obtain ⟨rfl, hR⟩ := h
    exact hk _ _ _ hR

/-- The left run goes on to stop again. -/
theorem SimTo.next {g' : α → Prog τ ε ω' β} (h : SimTo bl br R g' n m') (hk : ∀ a, SimTo bl br R g (f a) (g' a)) :
    SimTo bl br R g (n >>= f) m' := by
  intro s t hR
  have h := h s t hR
  unfold SimToAt at h ⊢
  simp only [Bind.bind, Prog.bind]
  cases hr : (n s).res <;> simp only [hr] at h ⊢
  · exact h
  · rename_i a
    rcases h with ⟨t', hR, hres, hst⟩ | ⟨e, he, hr'⟩
    · rw [hres, hst]
      exact hk a _ t' hR
    · cases (f a (n s).state).res with
      | error _ => exact .inr ⟨e, hr', .inl he⟩
      | ok _ => exact .inr ⟨e, he, hr'⟩

theorem SimTo.ite {b : Prop} [Decidable b] {m₁ : Prog σ ε ω γ} {m₁' : Prog τ ε ω' β}
    (h : b → SimTo bl br R g m m') (h' : ¬ b → SimTo bl br R g m₁ m₁') :
    SimTo bl br R g (if b then m else m₁) (if b then m' else m₁') := by
  split
  · exact h ‹_›
  · exact h' ‹_›

/-- A step that only the left run takes. -/
theorem SimTo.left (h : ∀ s t, R s t → wp Mode.fully n s (fun _ s' => R s' t) (fun _ _ => False))
    (hk : ∀ a, SimTo bl br R g (f a) m') : SimTo bl br R g (n >>= f) m' := by
  intro s t hR
  obtain ⟨a, ha, hR'⟩ := ok_of_wp_fully (h s t hR)
  have hk := hk a _ _ hR'
  unfold SimToAt at hk ⊢
  simp only [Bind.bind, Prog.bind, ha]
  exact hk

/-- A clean-up that only the left run does. -/
theorem SimTo.onErr (h : SimTo bl br R g m m') (hc : ∀ s t, R s t → R (c s) t) : SimTo bl br R g (m.onErr c) m' := by
  intro s t hR
  have h := h s t hR
  unfold SimToAt at h ⊢
  unfold Prog.onErr Prog.onError
  cases hr : (m s).res with
  | ok a => simpa only [hr] using h
  | error e =>
    cases e <;> simp only [hr] at h ⊢
    · exact h.imp_right fun ⟨e', he, h⟩ => ⟨e', he, h.imp_right fun h => ⟨h.1, hc _ _ h.2⟩⟩
    all_goals exact h

theorem SimTo.andThen (h : SimTo bl br R g m m') (hc : ∀ s t, R s t → R (c s) t) :
    SimTo bl br R g (m.andThen c) m' := by
  intro s t hR
  have h := h s t hR
  unfold SimToAt at h ⊢
  unfold Prog.andThen
  cases hr : (m s).res with
  | ok a =>
    simp only [hr] at h ⊢
    exact h.imp_left fun ⟨t', hR, h⟩ => ⟨t', hc _ _ hR, h⟩
  | error e =>
    cases e <;> simp only [hr] at h ⊢
    · exact h.imp_right fun ⟨e', he, h⟩ => ⟨e', he, h.imp_right fun h => ⟨h.1, hc _ _ h.2⟩⟩
    all_goals exact h

/-- Both go on. -/
theorem SimToAt.bind {k : γ → Prog σ ε ω β} {Q : γ → σ → Prop} {E : ε → σ → Prop} {good : ω → Prop}
    (h : SimToAt bl br R g m m' s t) (hw : wp (Mode.noting good) m s Q E) (hk : ∀ a s' t', R s' t' → Q a s' →
    SimAt bl br R (k a) (g a) s' t') :
    SimAt bl br R (m >>= k) m' s t := by
  have hq := (hw fun _ _ => id).2
  unfold SimToAt at h
  unfold SimAt Run.Sim at hk ⊢
  simp only [Bind.bind, Prog.bind]
  cases hr : (m s).res <;> rw [hr] at hq <;> simp only [hr] at h ⊢
  · rcases h with h | ⟨h', hr', h⟩
    · cases (m' t).res with
      | error _ => exact .inl h
      | ok _ => exact h
    · rw [hr']
      exact .inr h
  · rename_i a
    rcases h with ⟨t', hR, hres, hst⟩ | ⟨e, he, hr'⟩
    · rw [hres, hst]
      exact hk a _ t' hR hq
    · rw [hr']
      cases (k a (m s).state).res with
      | error _ => exact .inr (.inl he)
      | ok _ => exact he

theorem SimTo.sim {m' : Prog τ ε ω' γ} (h : SimTo bl br R Pure.pure m m') : Sim bl br R m m' := by
  intro s t hR
  have h := (h s t hR).bind (wp_true m s) (k := Pure.pure) fun a s' t' hR _ => simAt_pure hR
  rwa [bind_pure] at h

theorem Sim.simTo {m' : Prog τ ε ω' γ} (h : Sim bl br R m m') : SimTo bl br R Pure.pure m m' := by
  have h : SimTo bl br R Pure.pure (m >>= Pure.pure) (m' >>= Pure.pure) := .bind h fun _ => .pure rfl
  rwa [bind_pure, bind_pure] at h

end SimToRules
end Prog
