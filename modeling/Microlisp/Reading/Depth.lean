import Microlisp.Nesting
import Microlisp.Reading.Read
/-!
# How deep the reader recurses

The limit counts open lists only: an open quote mark takes an activation of `read_form` too.
-/
namespace Microlisp

open Prog Reader

/-- Reading the form at `r` takes at most `n` activations of `read_form` at once. -/
def ActivationsAtMost (c : Config) (s : State) (r : Reader) (n : Nat) : Prop := (readForm c n r s).res ≠ .error .timeout

/-- The reader has one activation for the form itself, one for each open list and one for each
open quote mark. At most `max_read_depth` lists are open, and deeper ones are refused; so the
activations are bounded where the open quote marks are. -/
theorem readForm_activations (c : Config) (s : State) (hs : s.Ready c) (r : Reader) (n : Nat)
    (hmem : (readForm c n r s).res ≠ .error (.err .errNomem)) :
    (ActivationsAtMost c s r n ↔
      ∀ lists quotes r', Place c.maxReadDepth r lists quotes r' → lists + quotes < n) ∧
    (∀ lists quotes r', Place c.maxReadDepth r lists quotes r' → lists ≤ c.maxReadDepth - r.depth) ∧
    ∀ lists quotes r', Place c.maxReadDepth r lists quotes r' → (skipWsAndComments r').peek = some (ch '(') →
      c.maxReadDepth ≤ r'.depth →
      (mlRead c r s).res = .error (.err .errReadDepth) ∨ (mlRead c r s).res = .error (.err .errNomem) := by
  have hfuel : ActivationsAtMost c s r n ↔ parseForm c.maxReadDepth n r ≠ .error .fuel := by
    constructor
    · intro hends hp
      have hk := (readForm_refines (P := False) n r hs (fun _ => id) fun _ _ h => h).2
      rw [hp] at hk
      cases hres : (readForm c n r s).res with
      | ok x =>
        rw [hres] at hk
        obtain ⟨-, y, hy, -⟩ := hk
        cases hy
      | error e =>
        rw [hres] at hk
        cases e with
        | err e =>
          rcases hk with rfl | hk
          · exact hmem hres
          · cases hk
        | stuck => exact hk trivial
        | timeout => exact hends hres
    · intro hp hres
      have hk := (readForm_refines (P := True) n r hs (fun h => absurd h hp) fun _ _ h => h).2
      rw [hres] at hk
      exact hk trivial
  refine ⟨?_, fun _ _ _ h => h.lists_le, ?_⟩
  · rw [hfuel, ne_eq, parseForm_fuel]
    constructor
    · intro h lists quotes r' hplace
      by_contra hle
      exact h ⟨lists, quotes, r', hplace, by omega⟩
    · rintro h ⟨lists, quotes, r', hplace, hle⟩
      have := h lists quotes r' hplace
      omega
  · intro lists quotes r' hplace hpeek hdepth
    obtain ⟨record, hp⟩ := parse_too_deep hpeek hdepth
    have hwhole := hplace.error hp
    rcases mlRead_cases hs r with ⟨v, r₁, y, -, hok, -⟩ | ⟨e, hres, he⟩
    · rw [hwhole] at hok
      cases hok
    · rcases he with rfl | he
      · exact .inr hres
      · rw [hwhole] at he
        cases he
        exact .inl hres

theorem readForm_activations_quote : ActivationsAtMost .created .created (.start (ascii "'(a)")) 3 ↔
    ∀ lists quotes r', Place 256 (.start (ascii "'(a)")) lists quotes r' → lists + quotes < 3 :=
  (readForm_activations .created .created (State.created_ready rfl rfl) _ 3 (by decide +kernel)).1

/-- No bound that depends on the limit only: it takes as many activations as there are quote
marks. -/
theorem readForm_unbounded : ¬ ∃ bound : Nat → Nat, ∀ c s r, s.Ready c →
    ActivationsAtMost c s r (bound c.maxReadDepth) := by
  rintro ⟨bound, h⟩
  have hquotes : ∀ n (r : Reader) s, r.rest = List.replicate n (ch '\'') →
      (readForm .created n r s).res = .error .timeout := by
    intro n
    induction n with
    | zero => exact fun _ _ _ => rfl
    | succ n ih =>
      intro r s hr
      have hstarts : Starts r.rest := by
        rw [hr]
        rintro _ ⟨⟩
        decide
      have hskip := skip_of_starts hstarts
      have hpeek : r.peek = some (ch '\'') := peek_of_rest hr
      have hinner := ih r.advance s (rest_advance hr)
      have hform : readForm .created (n + 1) r = readQuote .created (readForm .created n) r := by
        simp only [readForm, hskip, hpeek]
        rfl
      rw [hform]
      unfold readQuote
      simp only [bind, Prog.bind, hinner]
  exact h .created .created (.start (List.replicate (bound 256) (ch '\''))) (State.created_ready rfl rfl)
    (hquotes _ _ _ rfl)

end Microlisp
