import Microlisp.Specs
import Microlisp.Primitives
/-!
# Arithmetic

What the integer primitives do when the fixnums among their arguments are in range: the
result is a fixnum in range, no `int64_t` operation overflows, and nothing changes but the
recorded error. This holds of runs judged in any mode that accepts integers in range.
-/
namespace Microlisp

open Prog

/-- A fixnum among the values decodes to an integer in range. -/
def Val.InRange : Val → Prop
  | .fix p => fitsFixnum (mlFixInt p) = true
  | _ => True

/-- An immediate value or a fixnum in range. -/
def Val.Plain : Val → Prop
  | .fix p => fitsFixnum (mlFixInt p) = true
  | .imm _ => True
  | _ => False

/-- Integers in range are accepted. -/
structure Counts (M : Mode Event) : Prop where
  madeFix : ∀ x, fitsFixnum x = true → M.good (.madeFix x)
  int64 : ∀ x, int64Min ≤ x → x ≤ int64Max → M.good (.int64 x)

/-! ## Integers in range -/

section Ranges
variable {a b x : Int}

theorem fits_iff : fitsFixnum x = true ↔ -(2 ^ 59) ≤ x ∧ x ≤ 2 ^ 59 - 1 := by
  unfold fitsFixnum
  rw [Bool.and_eq_true, decide_eq_true_iff, decide_eq_true_iff]
  simp only [mFixMin, mFixMax]

theorem plain_mlMakeFix (hx : fitsFixnum x = true) : (mlMakeFix x).Plain := by
  have hr : mFixMin ≤ x ∧ x ≤ mFixMax := by simpa [fitsFixnum] using hx
  show fitsFixnum (mlFixInt (BitVec.ofInt 61 x)) = true
  rw [mlFixInt_ofInt hr]
  exact hx

theorem plain_mlMakeBool {b : Bool} : (mlMakeBool b).Plain := by cases b <;> trivial

theorem int64_neg (hx : fitsFixnum x = true) : int64Min ≤ -x ∧ -x ≤ int64Max := by
  rw [fits_iff] at hx
  simp only [int64Min, int64Max]
  omega

/-- A quotient is no larger than the dividend. -/
theorem int64_tdiv (ha : fitsFixnum a = true) : int64Min ≤ a.tdiv b ∧ a.tdiv b ≤ int64Max := by
  have hle : (a.tdiv b).natAbs ≤ a.natAbs := Int.natAbs_tdiv_le_natAbs a b
  rw [fits_iff] at ha
  simp only [int64Min, int64Max]
  omega

/-- The remainder of a fixnum is one. -/
theorem fits_tmod (ha : fitsFixnum a = true) : fitsFixnum (a.tmod b) = true := by
  rw [fits_iff] at ha ⊢
  have hle : (a.tmod b).natAbs ≤ a.natAbs := by
    rw [Int.natAbs_tmod]
    exact Nat.mod_le _ _
  rcases Int.le_total 0 a with h | h
  · have := Int.tmod_nonneg b h
    omega
  · have := Int.tmod_nonneg b (Int.neg_nonneg.2 h)
    rw [Int.neg_tmod] at this
    omega

/-- A remainder that gets the divisor's sign stays in range. -/
theorem fits_add_of_signs (ha : fitsFixnum a = true) (hb : fitsFixnum b = true) (hsign : (a < 0) ≠ (b < 0)) :
    fitsFixnum (a + b) = true := by
  rw [fits_iff] at ha hb ⊢
  by_cases hneg : a < 0 <;> by_cases hbneg : b < 0 <;> simp [hneg, hbneg] at hsign <;> omega

theorem int64_of_fits (hx : fitsFixnum x = true) : int64Min ≤ x ∧ x ≤ int64Max := by
  rw [fits_iff] at hx
  simp only [int64Min, int64Max]
  omega

end Ranges

/-! ## Steps -/

section Arith
variable {M : Mode Event} {s : State} {argv : List Val} {what : String} {α : Type} {v : Val} {i : Nat}

/-- Nothing has changed but the recorded error. -/
def OnlyError (s : State) (_ : Status) (t : State) : Prop := t = { s with lastError := t.lastError }

/-- An integer in range, the state being as before. -/
def FixResult (s : State) (x : Int) (t : State) : Prop := t = s ∧ fitsFixnum x = true

/-- An immediate value or a fixnum in range, the state being as before. -/
def PlainResult (s : State) (v : Val) (t : State) : Prop := t = s ∧ v.Plain

theorem raise_only {line column : Nat} {message : Bytes} {e : Status} {Q : α → State → Prop} :
    wp M (raise line column message e : ML α) s Q (OnlyError s) :=
  wp_bind (wp_modify (wp_fail rfl))

theorem argvGet_wp {E : Status → State → Prop} (hi : M.safe → i < argv.length) :
    wp M (argvGet argv i) s (fun v t => t = s ∧ v ∈ argv) E := by
  unfold argvGet
  cases hv : argv[i]? with
  | some v => exact wp_pure ⟨rfl, List.mem_of_getElem? hv⟩
  | none =>
    apply wp_stuck
    intro hs
    rw [List.getElem?_eq_getElem (hi hs)] at hv
    cases hv

theorem expectFix_wp (hv : v.InRange) : wp M (expectFix v what) s (FixResult s) (OnlyError s) := by
  cases v with
  | fix p => exact wp_pure ⟨rfl, hv⟩
  | _ => exact raise_only

/-- The value of the `i`-th argument, when it is a number. -/
theorem argFix_wp {f : Int → ML α} {Q : α → State → Prop} (hargs : ∀ v ∈ argv, v.InRange)
    (hi : M.safe → i < argv.length)
    (hf : ∀ x, fitsFixnum x = true → wp M (f x) s Q (OnlyError s)) :
    wp M (do
      let v ← argvGet argv i
      let x ← expectFix v what
      f x) s Q (OnlyError s) := by
  apply wp_seq (argvGet_wp hi)
  rintro v _ ⟨rfl, hv⟩
  apply wp_seq (expectFix_wp (hargs v hv))
  rintro x _ ⟨rfl, hx⟩
  exact hf x hx

theorem foldFix_wp {op : Int → Int → Int} {acc : Int} (hargs : ∀ v ∈ argv, v.InRange) (hacc : fitsFixnum acc = true) :
    wp M (foldFix op what argv acc) s (FixResult s) (OnlyError s) := by
  induction argv generalizing acc with
  | nil => exact wp_pure ⟨rfl, hacc⟩
  | cons a argv ih =>
    apply wp_seq (expectFix_wp (hargs a (by simp)))
    rintro x _ ⟨rfl, -⟩
    split
    · apply wp_ite
      · exact fun h => ih (fun v hv => hargs v (by simp [hv])) h
      · exact fun _ => raise_only
    · exact raise_only

theorem cmpLoop_wp {op : CmpOp} {prev : Int} (hargs : ∀ v ∈ argv, v.InRange) :
    wp M (cmpLoop op what argv prev) s (PlainResult s) (OnlyError s) := by
  induction argv generalizing prev with
  | nil => exact wp_pure ⟨rfl, trivial⟩
  | cons a argv ih =>
    apply wp_seq (expectFix_wp (hargs a (by simp)))
    rintro x _ ⟨rfl, -⟩
    apply wp_ite
    · exact fun _ => ih fun v hv => hargs v (by simp [hv])
    · exact fun _ => wp_pure ⟨rfl, trivial⟩

variable (hM : Counts M)
include hM

theorem makeFix_fits {E : Status → State → Prop} {x : Int} (hx : fitsFixnum x = true) :
    wp M (makeFix x) s (PlainResult s) E :=
  makeFix_wp (hM.madeFix x hx) ⟨rfl, plain_mlMakeFix hx⟩

theorem int64Op_fits {E : Status → State → Prop} {x : Int} {Q : Int → State → Prop} (hx : int64Min ≤ x ∧ x ≤ int64Max)
    (hQ : Q x s) : wp M (int64Op x) s Q E :=
  int64Op_wp (hM.int64 x hx.1 hx.2) (fun _ => hx) hQ

/-- Make a fixnum of the integer that `m` ends in. -/
theorem makeFix_result {m : ML Int} (h : wp M m s (FixResult s) (OnlyError s)) :
    wp M (m >>= makeFix) s (PlainResult s) (OnlyError s) := by
  apply wp_seq h
  rintro x _ ⟨rfl, hx⟩
  exact makeFix_fits hM hx

theorem int64Div_fits {E : Status → State → Prop} {a b : Int} {Q : Int → State → Prop} (ha : fitsFixnum a = true)
    (hb : b ≠ 0) (hQ : Q (a.tdiv b) s) : wp M (int64Div a b) s Q E := by
  unfold int64Div
  rw [if_neg hb]
  exact int64Op_fits hM (int64_tdiv ha) hQ

theorem int64Rem_fits {E : Status → State → Prop} {a b : Int} {Q : Int → State → Prop} (ha : fitsFixnum a = true)
    (hb : b ≠ 0) (hQ : Q (a.tmod b) s) : wp M (int64Rem a b) s Q E :=
  wp_bind (int64Div_fits hM ha hb (wp_pure hQ))

theorem divLoop_wp {acc : Int} (hargs : ∀ v ∈ argv, v.InRange) (hacc : fitsFixnum acc = true) :
    wp M (divLoop argv acc) s (FixResult s) (OnlyError s) := by
  induction argv generalizing acc with
  | nil => exact wp_pure ⟨rfl, hacc⟩
  | cons a argv ih =>
    apply wp_seq (expectFix_wp (hargs a (by simp)))
    rintro x _ ⟨rfl, -⟩
    apply wp_ite
    · exact fun _ => raise_only
    · intro hx
      apply wp_bind (int64Div_fits hM hacc hx _)
      apply wp_ite
      · exact fun h => ih (fun v hv => hargs v (by simp [hv])) h
      · exact fun _ => raise_only

/-! ## Primitives -/

theorem primSub_wp (hargs : ∀ v ∈ argv, v.InRange) (hlen : M.safe → 1 ≤ argv.length) :
    wp M (primSub argv) s (PlainResult s) (OnlyError s) := by
  apply wp_ite
  · intro _
    apply argFix_wp hargs hlen
    intro x hx
    apply wp_bind (int64Op_fits hM (int64_neg hx) _)
    apply wp_ite
    · exact fun h => makeFix_fits hM h
    · exact fun _ => raise_only
  · intro _
    apply argFix_wp hargs hlen
    intro x hx
    exact makeFix_result hM (foldFix_wp (fun v hv => hargs v (List.mem_of_mem_drop hv)) hx)

theorem primDiv_wp (hargs : ∀ v ∈ argv, v.InRange) (hlen : M.safe → 1 ≤ argv.length) :
    wp M (primDiv argv) s (PlainResult s) (OnlyError s) := by
  apply wp_ite
  · intro _
    apply argFix_wp hargs hlen
    intro x _
    apply wp_ite
    · exact fun _ => raise_only
    · exact fun _ => makeFix_fits hM (by split <;> [decide; split <;> decide])
  · intro _
    apply argFix_wp hargs hlen
    intro x hx
    exact makeFix_result hM (divLoop_wp hM (fun v hv => hargs v (List.mem_of_mem_drop hv)) hx)

omit hM in
/-- The start of `quotient`, `remainder` and `modulo`. -/
theorem divisor_wp {f : Int → Int → ML Val} (hargs : ∀ v ∈ argv, v.InRange) (hlen : M.safe → 2 ≤ argv.length)
    (hf : ∀ a b, fitsFixnum a = true → fitsFixnum b = true → b ≠ 0 → wp M (f a b) s (PlainResult s) (OnlyError s)) :
    wp M (do
      let a ← expectFix (← argvGet argv 0) what
      let b ← expectFix (← argvGet argv 1) what
      if b = 0 then raiseDivZero what else f a b) s (PlainResult s) (OnlyError s) := by
  apply argFix_wp hargs fun hs => Nat.lt_of_succ_lt (hlen hs)
  intro a ha
  apply argFix_wp hargs hlen
  intro b hb
  apply wp_ite
  · exact fun _ => raise_only
  · exact fun hne => hf a b ha hb hne

theorem primQuotient_wp (hargs : ∀ v ∈ argv, v.InRange) (hlen : M.safe → 2 ≤ argv.length) :
    wp M (primQuotient argv) s (PlainResult s) (OnlyError s) := by
  apply divisor_wp hargs hlen
  intro a b ha _ hb
  apply wp_bind (int64Div_fits hM ha hb _)
  apply wp_ite
  · exact fun h => makeFix_fits hM h
  · exact fun _ => raise_only

theorem primRemainder_wp (hargs : ∀ v ∈ argv, v.InRange) (hlen : M.safe → 2 ≤ argv.length) :
    wp M (primRemainder argv) s (PlainResult s) (OnlyError s) := by
  apply divisor_wp hargs hlen
  intro a b ha _ hb
  apply wp_ite
  · exact fun _ => makeFix_fits hM (by decide)
  · exact fun _ => wp_bind (int64Rem_fits hM ha hb (makeFix_fits hM (fits_tmod ha)))

theorem primModulo_wp (hargs : ∀ v ∈ argv, v.InRange) (hlen : M.safe → 2 ≤ argv.length) :
    wp M (primModulo argv) s (PlainResult s) (OnlyError s) := by
  apply divisor_wp hargs hlen
  intro a b ha hb hne
  have hr : fitsFixnum (a.tmod b) = true := fits_tmod ha
  apply wp_bind (int64Rem_fits hM ha hne _)
  apply wp_ite
  · rintro ⟨-, hsign⟩
    have hsum := fits_add_of_signs hr hb hsign
    exact wp_bind (int64Op_fits hM (int64_of_fits hsum) (makeFix_fits hM hsum))
  · exact fun _ => wp_bind (wp_pure (makeFix_fits hM hr))

omit hM in
theorem cmpChain_wp {op : CmpOp} (hargs : ∀ v ∈ argv, v.InRange) (hlen : M.safe → 2 ≤ argv.length) :
    wp M (cmpChain op what argv) s (PlainResult s) (OnlyError s) := by
  apply argFix_wp hargs fun hs => Nat.lt_of_succ_lt (hlen hs)
  intro x _
  exact cmpLoop_wp fun v hv => hargs v (List.mem_of_mem_drop hv)

end Arith
end Microlisp
