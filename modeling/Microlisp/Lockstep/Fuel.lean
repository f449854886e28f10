import Microlisp.Limits
/-!
# More nested calls

The model runs `ml_eval` with a number that bounds its nested calls and the turns of each of
its loops. A run that this number does not stop is the same run with any larger number, so
what a call of `microlisp_eval` ends in does not depend on it.
-/
namespace Microlisp

open Prog

/-- Which runs are not compared: those that the number stops. -/
def ranOut (h : Halt Status) : Prop := h = .timeout

section Fuel
variable {bl br : Halt Status → Prop} {c : Config} {form env : Val} {ev ev' : Val → Val → ML Val}

/-- A call and itself. -/
theorem lockstep_same : LockstepCall bl br c c (· = ·) (· = ·) :=
  have h : LockstepCall cutOff (fun _ => False) c c (· = ·) (· = ·) :=
    lockstep_limits (c := c) (Nat.le_refl _) (Nat.le_refl _) (Nat.le_refl _) (Nat.le_refl _)
  { h with
    maxReadDepth := .inl rfl
    maxEvalDepth := .inl rfl
    maxPrintDepth := .inl rfl
    maxEqualDepth := .inl rfl
    readObj := fun _ => sim_refl _
    writeObj := fun _ _ => sim_refl _
    gcAlloc := fun _ _ => sim_refl _
    rawAlloc := fun _ => sim_refl _
    protect := fun _ => sim_refl _
    getSlot := by
      rintro n _ rfl
      exact sim_refl _ }

theorem evalLoop_more (hev : ∀ form env, Sim ranOut br (· = ·) (ev form env) (ev' form env)) {sp turns turns' : Nat}
    (hle : turns ≤ turns') : Sim ranOut br (· = ·) (evalLoop c ev sp turns) (evalLoop c ev' sp turns') := by
  induction turns generalizing turns' with
  | zero => exact fun _ _ _ => simAt_of_left rfl rfl
  | succ turns ih =>
    obtain ⟨turns', rfl⟩ : ∃ k, turns' = k + 1 := ⟨turns' - 1, by omega⟩
    apply (evalIter_lockstep lockstep_same.toLockstepEval hev rfl).bind
    intro i
    cases i with
    | done v => exact .pure v
    | again => exact ih (by omega)

theorem mlEval_more {n m : Nat} (hle : n ≤ m) : Sim ranOut br (· = ·) (mlEval c n form env) (mlEval c m form env) := by
  induction n generalizing m form env with
  | zero => exact fun _ _ _ => simAt_of_left rfl rfl
  | succ n ih =>
    obtain ⟨m, rfl⟩ : ∃ k, m = k + 1 := ⟨m - 1, by omega⟩
    have hbody : Sim ranOut br (· = ·) (evalBody c (mlEval c n) (n + 1) form env)
        (evalBody c (mlEval c m) (m + 1) form env) := by
      apply (sim_refl _).bind
      intro sp
      apply (sim_refl _).bind
      intro _
      apply (sim_refl _).bind
      exact fun _ => evalLoop_more (fun _ _ => ih (by omega)) (by omega)
    apply (sim_refl _).bind
    intro depth
    apply Sim.ite (fun _ => sim_refl _)
    intro _
    apply (sim_refl _).bind
    intro _
    apply hbody.andThen
    rintro s _ rfl
    rfl

theorem readEvalLoop_more {n m turns : Nat} (hle : n ≤ m) {r : Reader} {v : Val} {saw : Bool} :
    Sim ranOut br (· = ·) (readEvalLoop c n turns r v saw) (readEvalLoop c m turns r v saw) := by
  induction turns generalizing r v saw with
  | zero => exact .timeout
  | succ turns ih =>
    apply (sim_refl _).bind
    rintro ⟨form, r'⟩
    apply Sim.ite (fun _ => sim_refl _)
    intro _
    apply (sim_refl _).bind
    intro sp
    apply (sim_refl _).bind
    intro _
    apply Sim.bind _ fun _ => ih
    apply (mlEval_more hle).andThen
    rintro s _ rfl
    rfl

theorem microlispEval_more {n m : Nat} (hle : n ≤ m) {source : Option Bytes} {sourceLen : Nat} {wantBytes : Bool} :
    Sim ranOut (fun _ => False) (· = ·) (microlispEval c n source sourceLen wantBytes)
      (microlispEval c m source sourceLen wantBytes) := by
  apply Sim.ite (fun _ => sim_refl _)
  intro _
  apply (sim_refl _).bind
  intro _
  apply (readEvalLoop_more hle).bind
  exact fun _ => sim_refl _

/-- Two runs of one call that both end, end alike. -/
theorem microlispEval_once {n m : Nat} {s : State} {source : Option Bytes} {sourceLen : Nat} {wantBytes : Bool}
    {o o' : Except Status (Option Bytes)} (ho : (microlispEval c n source sourceLen wantBytes s).Ends o)
    (ho' : (microlispEval c m source sourceLen wantBytes s).Ends o') :
    o = o' ∧ (microlispEval c n source sourceLen wantBytes s).state =
      (microlispEval c m source sourceLen wantBytes s).state := by
  have hle : ∀ {n m : Nat} {o o' : Except Status (Option Bytes)}, n ≤ m →
      (microlispEval c n source sourceLen wantBytes s).Ends o →
        (microlispEval c m source sourceLen wantBytes s).Ends o' →
      o = o' ∧ (microlispEval c n source sourceLen wantBytes s).state =
        (microlispEval c m source sourceLen wantBytes s).state := by
    intro n m o o' h ho ho'
    have hends := (microlispEval_more h s s rfl).ends ho (fun e _ he => by cases he) fun _ => id
    exact ⟨hends.1.unique ho', hends.2⟩
  rcases Nat.le_total n m with h | h
  · exact hle h ho ho'
  · obtain ⟨hres, hstate⟩ := hle h ho' ho
    exact ⟨hres.symm, hstate.symm⟩

end Fuel
end Microlisp
