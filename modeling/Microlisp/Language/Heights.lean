import Microlisp.Language.Semantics
import Microlisp.Lib.Limit
/-!
# Enough height

A form that has a value, or fails, or is left open within one height of derivations does so within
every greater one. So has what a program answers.
-/
namespace Microlisp.Language

open Prog

section Nested
variable {ev ev' : Datum → List Nat → Sem Value} (hev : ∀ d env, Below (ev d env) (ev' d env))
    {env : List Nat} {d rest : Datum}
include hev

theorem sequence_below (es : List Datum) : Below (sequence ev env es) (sequence ev' env es) := by
  induction es with
  | nil => exact .refl
  | cons e es ih =>
    cases es with
    | nil => exact hev e env
    | cons e' es => exact (hev e env).bind fun _ => ih

theorem body_below : Below (body ev env d) (body ev' env d) := by
  unfold body
  cases d.elems with
  | none => exact .refl
  | some es => exact sequence_below hev es

theorem ifForm_below (es : List Datum) : Below (ifForm ev env es) (ifForm ev' env es) := by
  unfold ifForm
  split
  · apply (hev _ _).bind
    intro v
    cases v.truthy
    · exact .refl
    · exact hev _ _
  · apply (hev _ _).bind
    intro v
    cases v.truthy
    · exact hev _ _
    · exact hev _ _
  · exact .refl

theorem defineForm_below (es : List Datum) : Below (defineForm ev env es) (defineForm ev' env es) := by
  unfold defineForm
  split
  · exact (hev _ _).bind fun _ => .refl
  · exact .refl
  · exact .refl

theorem setForm_below (es : List Datum) : Below (setForm ev env es) (setForm ev' env es) := by
  unfold setForm
  split
  · exact (hev _ _).bind fun _ => .refl
  · exact .refl

theorem bindEach_below {inner : List Nat} (ds : List Datum) :
    Below (bindEach ev inner env ds) (bindEach ev' inner env ds) := by
  induction ds with
  | nil => exact .refl
  | cons d ds ih =>
    unfold bindEach
    cases d.binding with
    | none => exact .refl
    | some b => exact (hev _ _).bind fun _ => Below.refl.bind fun _ => ih

theorem letForm_below {starlike recursive : Bool} (es : List Datum) :
    Below (letForm ev starlike recursive env es) (letForm ev' starlike recursive env es) := by
  unfold letForm
  split
  · rename_i bindings e es
    cases bindings.elems with
    | none => exact .refl
    | some ds =>
      apply Below.refl.bind
      intro k
      have hinit : ∀ initEnv, Below (do
          bindEach ev (k :: env) initEnv ds
          sequence ev (k :: env) (e :: es)) (do
          bindEach ev' (k :: env) initEnv ds
          sequence ev' (k :: env) (e :: es)) := fun _ => (bindEach_below hev ds).bind
            fun _ => sequence_below hev (e :: es)
      cases recursive
      · exact hinit _
      · exact Below.refl.bind fun _ => hinit _
  · exact .refl

theorem andOr_below {isOr : Bool} (es : List Datum) : Below (andOr ev isOr env es) (andOr ev' isOr env es) := by
  induction es with
  | nil => exact .refl
  | cons e es ih =>
    cases es with
    | nil => exact hev e env
    | cons e' es =>
      apply (hev e env).bind
      intro v
      cases v.truthy == isOr
      · exact ih
      · exact .refl

theorem cond_below (clauses : List Datum) : Below (Language.cond ev env clauses) (Language.cond ev' env clauses) := by
  induction clauses with
  | nil => exact .refl
  | cons clause clauses ih =>
    cases clause with
    | pair test forms =>
      by_cases helse : test = .sym (ascii "else")
      · simp only [Language.cond, if_pos helse]
        exact body_below hev
      · simp only [Language.cond, if_neg helse]
        apply (hev _ _).bind
        intro v
        cases v.truthy
        · exact ih
        · by_cases hforms : forms = .nil
          · simp only [if_pos hforms]
            exact .refl
          · simp only [if_neg hforms]
            exact body_below hev
    | _ => exact .refl

theorem operands_below (es : List Datum) : Below (operands ev env es) (operands ev' env es) := by
  induction es with
  | nil => exact .refl
  | cons e es ih => exact (hev e env).bind fun _ => ih.bind fun _ => .refl

theorem apply_below {f : Value} {vs : List Value} : Below (Language.apply ev f vs) (Language.apply ev' f vs) := by
  cases f with
  | closure params rest forms env => exact Below.refl.bind fun k => sequence_below hev forms
  | _ => exact .refl

theorem call_below {head : Datum} : Below (call ev head rest env) (call ev' head rest env) := by
  apply (hev _ _).bind
  intro f
  cases rest.elems with
  | none => exact .refl
  | some es => exact (operands_below hev es).bind fun vs => apply_below hev

omit hev in
theorem special_below {rule rule' : List Datum → Sem Value} (h : ∀ es, Below (rule es) (rule' es)) :
    Below (special rest rule) (special rest rule') := by
  unfold special
  cases rest.elems with
  | none => exact .refl
  | some es => exact h es

theorem symbolForm_below {name : Bytes} : Below (symbolForm ev name rest env) (symbolForm ev' name rest env) := by
  apply Below.ite .refl
  apply Below.ite (special_below (ifForm_below hev))
  apply Below.ite (special_below (defineForm_below hev))
  apply Below.ite (special_below (setForm_below hev))
  apply Below.ite .refl
  apply Below.ite (special_below (sequence_below hev))
  apply Below.ite (special_below (letForm_below hev))
  apply Below.ite (special_below (letForm_below hev))
  apply Below.ite (special_below (letForm_below hev))
  apply Below.ite (special_below (andOr_below hev))
  apply Below.ite (special_below (andOr_below hev))
  apply Below.ite (special_below (cond_below hev))
  exact call_below hev

theorem form_below : Below (form ev d env) (form ev' d env) := by
  cases d with
  | pair head rest =>
    cases head with
    | sym name => exact symbolForm_below hev
    | _ => exact call_below hev
  | _ => exact .refl

end Nested

theorem eval_below {n k : Nat} (h : n ≤ k) (d : Datum) (env : List Nat) : Below (eval n d env) (eval k d env) := by
  induction n generalizing k d env with
  | zero => exact fun _ => .inl rfl
  | succ n ih =>
    obtain ⟨k, rfl⟩ : ∃ i, k = i + 1 := ⟨k - 1, by omega⟩
    exact form_below fun d env => ih (Nat.le_of_succ_le_succ h) d env

theorem runForms_below {n k : Nat} (h : n ≤ k) {fault : Option Status} (es : List Datum) (last : Value) :
    Below (runForms n fault es last) (runForms k fault es last) := by
  induction es generalizing last with
  | nil => exact .refl
  | cons e es ih => exact (eval_below h e toplevel).bind fun v => ih v

theorem answer_below {n k : Nat} (h : n ≤ k) {fault : Option Status} {es : List Datum} {wantBytes : Bool} :
    Below (answer n fault es wantBytes) (answer k fault es wantBytes) :=
      (runForms_below h es .undef).bind fun _ => .refl

end Microlisp.Language
