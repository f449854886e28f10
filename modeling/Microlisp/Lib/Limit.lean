import Microlisp.Lib.Prog
/-!
# Programs with ever more fuel

A chain of programs, each of which runs like those before it wherever they had enough
fuel. Its limit runs like one of them, or like none where all run out of fuel.
-/
namespace Prog

variable {σ ε ω α β : Type}

/-- `m'` runs as `m` does, wherever `m` has enough fuel. -/
def Below (m m' : Prog σ ε ω α) : Prop := ∀ s, (m s).res = .error .timeout ∨ m' s = m s

/-- What the programs `f` come to with more and more fuel. -/
structure Limit (f : Nat → Prog σ ε ω α) (m : Prog σ ε ω α) : Prop where
  mono : ∀ i j, i ≤ j → Below (f i) (f j)
  below : ∀ i, Below (f i) m
  reached : ∀ s, (m s).res = .error .timeout ∨ ∃ i, m s = f i s

/-- A program that does so. -/
noncomputable def limit (f : Nat → Prog σ ε ω α) : Prog σ ε ω α := fun s =>
  open Classical in if h : ∃ i, (f i s).res ≠ .error .timeout then f h.choose s else f 0 s

/-- From `s` the two programs run alike, or both run out of fuel. -/
def SameAt (m m' : Prog σ ε ω α) (s : σ) : Prop :=
  (m s).res = .error .timeout ∧ (m' s).res = .error .timeout ∨ m s = m' s

section Rules
variable {m m' : Prog σ ε ω α} {k k' : α → Prog σ ε ω β} {f : Nat → Prog σ ε ω α} {s : σ}

theorem bind_of_ok {a : α} (h : (m s).res = .ok a) : (m >>= k) s =
    ⟨(k a (m s).state).res, (k a (m s).state).state, (m s).trace ++ (k a (m s).state).trace⟩ := by
  simp only [Bind.bind, Prog.bind, h]

theorem bind_of_error {x : Halt ε} (h : (m s).res = .error x) : (m >>= k) s = ⟨.error x, (m s).state, (m s).trace⟩ := by
  simp only [Bind.bind, Prog.bind, h]

/-- What follows is run only from where the first program returned. -/
theorem bind_run_congr (h : ∀ a, (m s).res = .ok a → k a (m s).state = k' a (m s).state) :
    (m >>= k) s = (m >>= k') s := by
  cases hres : (m s).res with
  | ok a => rw [bind_of_ok hres, bind_of_ok hres, h a hres]
  | error x => rw [bind_of_error hres, bind_of_error hres]

/-! ## More fuel -/

theorem Below.refl : Below m m := fun _ => .inr rfl

theorem Below.ite {n n' : Prog σ ε ω α} {b : Prop} [Decidable b] (h : Below m m') (h' : Below n n') :
    Below (if b then m else n) (if b then m' else n') := by
  split
  · exact h
  · exact h'

theorem Below.bind (hm : Below m m') (hk : ∀ a, Below (k a) (k' a)) : Below (m >>= k) (m' >>= k') := by
  intro s
  rcases hm s with hm | hm
  · exact .inl (by rw [bind_of_error hm])
  cases hres : (m s).res with
  | error x => exact .inr (by rw [bind_of_error hres, bind_of_error (hm ▸ hres), hm])
  | ok a =>
    rw [bind_of_ok hres, bind_of_ok (hm ▸ hres), hm]
    rcases hk a (m s).state with hk | hk
    · exact .inl hk
    · exact .inr (by rw [hk])

/-! ## Limits -/

theorem limit_limit (h : ∀ i j, i ≤ j → Below (f i) (f j)) : Limit f (limit f) := by
  have hsome : ∀ s i, (f i s).res ≠ .error .timeout → limit f s = f i s := by
    intro s i hi
    have hex : ∃ i, (f i s).res ≠ .error .timeout := ⟨i, hi⟩
    rw [limit, dif_pos hex]
    rcases Nat.le_total hex.choose i with hle | hle
    · exact ((h _ _ hle s).resolve_left hex.choose_spec).symm
    · exact (h _ _ hle s).resolve_left hi
  refine ⟨h, fun i s => ?_, fun s => ?_⟩
  · by_cases hi : (f i s).res = .error .timeout
    · exact .inl hi
    · exact .inr (hsome s i hi)
  · by_cases hex : ∃ i, (f i s).res ≠ .error .timeout
    · exact .inr ⟨_, hsome s _ hex.choose_spec⟩
    · left
      rw [limit, dif_neg hex]
      exact Classical.not_not.1 fun h0 => hex ⟨0, h0⟩

theorem Limit.const (m : Prog σ ε ω α) : Limit (fun _ => m) m :=
  ⟨fun _ _ _ => .refl, fun _ => .refl, fun _ => .inr ⟨0, rfl⟩⟩

theorem Limit.ite {b : Prop} [Decidable b] {g : Nat → Prog σ ε ω α} (h : b → Limit f m) (h' : ¬ b → Limit g m') :
    Limit (fun i => if b then f i else g i) (if b then m else m') := by
  by_cases hb : b
  · simpa only [if_pos hb] using h hb
  · simpa only [if_neg hb] using h' hb

theorem Limit.bind {g : Nat → α → Prog σ ε ω β} (hm : Limit f m) (hk : ∀ a, Limit (fun i => g i a) (k a)) :
    Limit (fun i => f i >>= g i) (m >>= k) := by
  refine ⟨fun i j hij => (hm.mono i j hij).bind fun a => (hk a).mono i j hij,
    fun i => (hm.below i).bind fun a => (hk a).below i, fun s => ?_⟩
  rcases hm.reached s with hm' | ⟨i, hi⟩
  · exact .inl (by rw [bind_of_error hm'])
  cases hres : (m s).res with
  | error x => exact .inr ⟨i, by rw [bind_of_error hres, bind_of_error (hi ▸ hres), hi]⟩
  | ok a =>
    rcases (hk a).reached (m s).state with hk' | ⟨j, hj⟩
    · exact .inl (by rw [bind_of_ok hres, hk'])
    by_cases htime : (k a (m s).state).res = .error .timeout
    · exact .inl (by rw [bind_of_ok hres, htime])
    · -- with the fuel of both, neither runs out of it
      have hf : f (max i j) s = m s := by
        rw [hi]
        apply (hm.mono i (max i j) (Nat.le_max_left _ _) s).resolve_left
        rw [← hi, hres]
        exact nofun
      have hg : g (max i j) a (m s).state = k a (m s).state := by
        rw [hj] at htime ⊢
        exact ((hk a).mono j (max i j) (Nat.le_max_right _ _) _).resolve_left htime
      exact .inr ⟨max i j, by rw [bind_of_ok hres, bind_of_ok (hf ▸ hres), hf, hg]⟩

/-- A chain that starts later has the same limit. -/
theorem Limit.succ (h : Limit f m) : Limit (fun i => f (i + 1)) m := by
  refine ⟨fun i j hij => h.mono _ _ (Nat.succ_le_succ hij), fun i => h.below _, fun s => ?_⟩
  rcases h.reached s with h' | ⟨i, hi⟩
  · exact .inl h'
  · by_cases htime : (f i s).res = .error .timeout
    · exact .inl (by rw [hi, htime])
    · exact .inr ⟨i, by rw [hi, (h.mono i (i + 1) (Nat.le_succ i) s).resolve_left htime]⟩

theorem ne_timeout_of_ends {r : Run σ ε ω α} {o : Except ε α} (h : r.Ends o) : r.res ≠ .error .timeout := by
  rw [h]
  cases o <;> exact nofun

/-- Where one of the programs ends, the limit runs like it. -/
theorem Limit.eq_of_ends (h : Limit f m) {i : Nat} {o : Except ε α} (ho : (f i s).Ends o) : m s = f i s :=
  (h.below i s).resolve_left (ne_timeout_of_ends ho)

theorem Limit.exists_eq (h : Limit f m) {o : Except ε α} (ho : (m s).Ends o) : ∃ i, m s = f i s :=
  (h.reached s).resolve_left (ne_timeout_of_ends ho)

/-! ## Programs that run alike -/

theorem SameAt.refl : SameAt m m s := .inr rfl

theorem SameAt.symm (h : SameAt m m' s) : SameAt m' m s := h.imp And.symm Eq.symm

theorem SameAt.trans {m'' : Prog σ ε ω α} (h : SameAt m m' s) (h' : SameAt m' m'' s) : SameAt m m'' s := by
  rcases h with ⟨hm, hm'⟩ | h
  · rcases h' with ⟨-, hm''⟩ | h'
    · exact .inl ⟨hm, hm''⟩
    · exact .inl ⟨hm, h' ▸ hm'⟩
  · rcases h' with ⟨hm', hm''⟩ | h'
    · exact .inl ⟨h ▸ hm', hm''⟩
    · exact .inr (h.trans h')

theorem SameAt.bind (hm : SameAt m m' s) (hk : ∀ a s', (m s).res = .ok a → (m s).state = s' → SameAt (k a) (k' a) s') :
    SameAt (m >>= k) (m' >>= k') s := by
  rcases hm with ⟨hm, hm'⟩ | hm
  · exact .inl ⟨by rw [bind_of_error hm], by rw [bind_of_error hm']⟩
  cases hres : (m s).res with
  | error x => exact .inr (by rw [bind_of_error hres, bind_of_error (hm ▸ hres), hm])
  | ok a =>
    unfold SameAt
    rw [bind_of_ok hres, bind_of_ok (hm ▸ hres), ← hm]
    rcases hk a _ hres rfl with h | h
    · exact .inl h
    · exact .inr (by rw [h])

theorem SameAt.ite {b : Prop} [Decidable b] {n n' : Prog σ ε ω α} (h : b → SameAt m m' s) (h' : ¬ b → SameAt n n' s) :
    SameAt (if b then m else n) (if b then m' else n') s := by
  by_cases hb : b
  · simpa only [if_pos hb] using h hb
  · simpa only [if_neg hb] using h' hb

/-- A chain has one limit only. -/
theorem Limit.same (h : Limit f m) (h' : Limit f m') : SameAt m m' s := by
  have hdown : ∀ {m m'}, Limit f m → Limit f m' → (m s).res = .error .timeout ∨ m' s = m s := by
    intro m m' h h'
    rcases h.reached s with hm | ⟨i, hi⟩
    · exact .inl hm
    · rw [hi]
      exact h'.below i s
  rcases hdown h h' with hm | hm
  · rcases hdown h' h with hm' | hm'
    · exact .inl ⟨hm, hm'⟩
    · exact .inr hm'
  · exact .inr hm.symm

theorem SameAt.ends {o : Except ε α} (h : SameAt m m' s) (ho : (m s).Ends o) :
    (m' s).Ends o ∧ (m' s).state = (m s).state := by
  rcases h with ⟨hm, -⟩ | h
  · exact absurd hm (ne_timeout_of_ends ho)
  · exact ⟨h ▸ ho, by rw [h]⟩

end Rules

end Prog
