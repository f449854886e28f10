import Mathlib.Logic.Relation
/-!
# Relations without cycles

A relation along which a rank goes down has no cycle. A rank survives when edges are
taken away, when a vertex that nothing leads to gets edges, and when edges are added
from one part of the vertices to another that has no way back.
-/

/-- Along the edges a rank goes down. -/
def Ranked {α : Type} (E : α → α → Prop) : Prop := ∃ rank : α → Nat, ∀ a b, E a b → rank b < rank a

namespace Ranked

variable {α : Type} {E E' : α → α → Prop}

theorem mono (h : Ranked E) (hsub : ∀ a b, E' a b → E a b) : Ranked E' := by
  obtain ⟨rank, hrank⟩ := h
  exact ⟨rank, fun a b hab => hrank a b (hsub a b hab)⟩

theorem acyclic (h : Ranked E) (a : α) : ¬ Relation.TransGen E a a := by
  obtain ⟨rank, hrank⟩ := h
  have hpath : ∀ b, Relation.TransGen E a b → rank b < rank a := by
    intro b hab
    induction hab with
    | single hab => exact hrank a _ hab
    | tail _ hbc ih => exact Nat.lt_trans (hrank _ _ hbc) ih
  intro hcycle
  exact Nat.lt_irrefl _ (hpath a hcycle)

/-- What every edge leads towards holds everywhere. -/
theorem induct (h : Ranked E) {P : α → Prop} (hstep : ∀ a, (∀ b, E a b → P b) → P a) (a : α) : P a := by
  obtain ⟨rank, hrank⟩ := h
  have hbelow : ∀ n a, rank a < n → P a := by
    intro n
    induction n with
    | zero => intro a ha; omega
    | succ n ih =>
      intro a ha
      apply hstep
      intro b hab
      have := hrank a b hab
      exact ih b (by omega)
  exact hbelow (rank a + 1) a (Nat.lt_succ_self _)

/-- Ranks of finitely many vertices have a bound. -/
theorem exists_above (rank : α → Nat) (l : List α) : ∃ n, ∀ a ∈ l, rank a < n := by
  induction l with
  | nil => exact ⟨0, by simp⟩
  | cons b l ih =>
    obtain ⟨n, hn⟩ := ih
    refine ⟨max n (rank b + 1), ?_⟩
    intro a ha
    rcases List.mem_cons.1 ha with rfl | ha
    · omega
    · have := hn a ha
      omega

/-- A vertex that nothing leads to gets edges to those in `l`. -/
theorem source (h : Ranked E) {x : α} {l : List α} (hx : ∀ a, ¬ E' a x)
    (hnew : ∀ a b, E' a b → E a b ∨ a = x ∧ b ∈ l) : Ranked E' := by
  classical
  obtain ⟨rank, hrank⟩ := h
  obtain ⟨n, hn⟩ := exists_above rank l
  refine ⟨fun a => if a = x then max n (rank x) else rank a, ?_⟩
  intro a b hab
  have hb : b ≠ x := fun hb => hx a (hb ▸ hab)
  simp only [if_neg hb]
  rcases hnew a b hab with hold | ⟨rfl, hbl⟩
  · have := hrank a b hold
    split
    · rename_i ha
      rw [ha] at this
      omega
    · exact this
  · have := hn b hbl
    simp only [if_true]
    omega

/-- Edges are added from the vertices in `P` to those in `l`, from where no edge leads back. -/
theorem join (h : Ranked E) {P : α → Prop} {l : List α} (hback : ∀ a b, E a b → P b → P a)
    (hnew : ∀ a b, E' a b → E a b ∨ P a ∧ ¬ P b ∧ b ∈ l) : Ranked E' := by
  classical
  obtain ⟨rank, hrank⟩ := h
  obtain ⟨n, hn⟩ := exists_above rank l
  refine ⟨fun a => if P a then rank a + n else rank a, ?_⟩
  intro a b hab
  rcases hnew a b hab with hold | ⟨ha, hb, hbl⟩
  · have := hrank a b hold
    by_cases hb : P b
    · simp only [if_pos hb, if_pos (hback a b hold hb)]
      omega
    · simp only [if_neg hb]
      split <;> omega
  · have := hn b hbl
    simp only [if_pos ha, if_neg hb]
    omega

end Ranked
