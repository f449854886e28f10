import Mathlib.Data.List.Basic
/-!
# Scans that stop at the first refusal

A scan looks at the elements of a list from left to right. What it thinks of an element
depends on those before it; at the first one that it refuses, it stops.
-/

namespace Refusal

variable {α ε : Type} {refuse : List α → α → Option ε} {l pre post : List α} {x : α} {e e' : ε}

/-- Why the first refused element is refused; `pre` has been accepted. -/
def first (refuse : List α → α → Option ε) : List α → List α → Option ε
  | _, [] => none
  | pre, x :: l =>
    match refuse pre x with
    | some e => some e
    | none => first refuse (pre ++ [x]) l

/-- No element is refused. -/
def Accepted (refuse : List α → α → Option ε) (l : List α) : Prop :=
  ∀ pre x post, l = pre ++ x :: post → refuse pre x = none

/-- Some element is refused for the reason `e`, and none before it is refused. -/
def Refused (refuse : List α → α → Option ε) (l : List α) (e : ε) : Prop :=
  ∃ pre x post, l = pre ++ x :: post ∧ refuse pre x = some e ∧ Accepted refuse pre

theorem accepted_nil : Accepted refuse [] := by
  intro pre x post h
  cases pre <;> cases h

theorem Accepted.of_append (h : Accepted refuse (l ++ post)) : Accepted refuse l := by
  rintro pre x rest rfl
  exact h pre x (rest ++ post) (by simp)

theorem accepted_snoc : Accepted refuse (l ++ [x]) ↔ Accepted refuse l ∧ refuse l x = none := by
  constructor
  · exact fun h => ⟨h.of_append, h l x [] rfl⟩
  · rintro ⟨h, hx⟩ pre y post heq
    rcases List.eq_nil_or_concat post with rfl | ⟨post', z, rfl⟩
    · obtain ⟨rfl, hy⟩ := List.append_inj' heq rfl
      cases hy
      exact hx
    · rw [List.concat_eq_append, ← List.cons_append, ← List.append_assoc] at heq
      exact h pre y post' (List.append_inj' heq rfl).1

/-- A list has at most one first refused element. -/
theorem Refused.unique (h : Refused refuse l e) (h' : Refused refuse l e') : e = e' := by
  obtain ⟨pre, x, post, rfl, hx, hpre⟩ := h
  obtain ⟨pre', x', post', heq, hx', hpre'⟩ := h'
  rcases List.append_eq_append_iff.1 heq with ⟨mid, rfl, hmid⟩ | ⟨mid, rfl, hmid⟩
  · cases mid with
    | nil =>
      rw [List.append_nil] at hx'
      cases hmid
      rw [hx] at hx'
      exact Option.some.inj hx'
    | cons y mid =>
      cases hmid
      rw [hpre' pre x mid rfl] at hx
      cases hx
  · cases mid with
    | nil =>
      rw [List.append_nil] at hx
      cases hmid
      rw [hx] at hx'
      exact Option.some.inj hx'
    | cons y mid =>
      cases hmid
      rw [hpre pre' x' mid rfl] at hx'
      cases hx'

theorem Refused.not_accepted (h : Refused refuse l e) : ¬ Accepted refuse l := by
  obtain ⟨pre, x, post, rfl, hx, -⟩ := h
  intro ha
  rw [ha pre x post rfl] at hx
  cases hx

/-- The scan finds the first refused element. -/
theorem first_spec (refuse : List α → α → Option ε) (l : List α) (hpre : Accepted refuse pre) :
    match first refuse pre l with
    | some e => Refused refuse (pre ++ l) e
    | none => Accepted refuse (pre ++ l) := by
  induction l generalizing pre with
  | nil =>
    rw [List.append_nil]
    exact hpre
  | cons x l ih =>
    unfold first
    cases hx : refuse pre x with
    | some e => exact ⟨pre, x, l, rfl, hx, hpre⟩
    | none =>
      have hsnoc := ih (accepted_snoc.2 ⟨hpre, hx⟩)
      rwa [List.append_assoc] at hsnoc

theorem first_eq_some : first refuse [] l = some e ↔ Refused refuse l e := by
  have h := first_spec refuse l accepted_nil
  constructor
  · intro he
    rw [he] at h
    exact h
  · intro he
    cases hf : first refuse [] l with
    | none =>
      rw [hf] at h
      exact absurd h he.not_accepted
    | some e' =>
      rw [hf] at h
      rw [he.unique h]

theorem first_eq_none : first refuse [] l = none ↔ Accepted refuse l := by
  have h := first_spec refuse l accepted_nil
  constructor
  · intro hn
    rw [hn] at h
    exact h
  · intro ha
    cases hf : first refuse [] l with
    | none => rfl
    | some e =>
      rw [hf] at h
      exact absurd ha h.not_accepted

end Refusal
