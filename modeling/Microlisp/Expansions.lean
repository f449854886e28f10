import Microlisp.Meaning
import Microlisp.Tidy.Walks
/-!
# Derived forms

`and`, `or`, `cond` and the short shape of `define` have handlers of their own, and so has
each of the `let`s. What they do is what other forms do. The forms on the two sides share
their parts, and stay as they are while the parts are evaluated.
-/
namespace Microlisp

open Prog

/-! ## Forms in the heap -/

/-- The cells from `v` on hold `vs`, and `tail` comes after them. -/
def Heap.Listed (h : Heap) : Val → List Val → Val → Prop
  | v, [], tail => v = tail
  | v, x :: xs, tail => ∃ d, h.Has v (.pair x d) ∧ h.Listed d xs tail

/-- The symbols that the head of a form is compared with, and `else`, in the order in which
they are interned. -/
def Config.names (c : Config) : List Val :=
  [c.symQuote, c.symIf, c.symDefine, c.symLambda, c.symSetBang, c.symLet, c.symLetStar, c.symLetrec,
    c.symBegin, c.symAnd,
    c.symOr, c.symCond, c.symElse]

section Cells
variable {c : Config} {s : State} {h h' : Heap} {v a d tail : Val} {vs xs : List Val} {α : Type}

theorem asObj_run {o : Obj} {k : Obj → ML α} (ho : s.heap.Has v o) : (asObj v >>= k) s = k o s := by
  obtain ⟨x, rfl, hx⟩ := ho
  unfold asObj readObj
  rw [bind_assoc, gets_bind_run, hx]
  exact pure_bind_run

theorem car_run {k : Val → ML α} (ho : s.heap.Has v (.pair a d)) : (car v >>= k) s = k a s := by
  unfold car
  rw [bind_assoc, asObj_run ho]
  exact pure_bind_run

theorem cdr_run {k : Val → ML α} (ho : s.heap.Has v (.pair a d)) : (cdr v >>= k) s = k d s := by
  unfold cdr
  rw [bind_assoc, asObj_run ho]
  exact pure_bind_run

theorem mlIsPair_run {k : Bool → ML α} (ho : s.heap.Has v (.pair a d)) : (mlIsPair v >>= k) s = k true s := by
  obtain ⟨x, rfl, hx⟩ := ho
  cases x with
  | zero => cases hx.symm.trans Heap.get_zero
  | succ x =>
    unfold mlIsPair isObjType readObj
    simp only [bind_assoc]
    rw [gets_bind_run, hx]
    simp only [pure_bind]
    rfl

theorem mlIsPair_nil {k : Bool → ML α} : (mlIsPair mvNil >>= k) s = k false s := pure_bind_run

theorem Heap.Has.ne_nil {o : Obj} (ho : h.Has v o) : v ≠ mvNil := by
  rintro rfl
  obtain ⟨_, ⟨⟩, -⟩ := ho

theorem Heap.Listed.spine (hl : h.Listed v vs tail) : h.Spine v vs.length tail := by
  induction vs generalizing v with
  | nil => exact hl ▸ .nil
  | cons x vs ih =>
    obtain ⟨d, ho, hd⟩ := hl
    exact .cons ho (ih hd)

theorem Heap.Listed.agree (hl : h.Listed v vs tail) (hx : Heap.Agree (fun _ => True) h h') : h'.Listed v vs tail := by
  induction vs generalizing v with
  | nil => exact hl
  | cons x vs ih =>
    obtain ⟨d, ho, hd⟩ := hl
    exact ⟨d, hx.has_eq Val.in_all ho rfl, ih hd⟩

theorem properListLength_run {k : Option Nat → ML α} (hl : s.heap.Listed v vs mvNil) :
    (properListLength v >>= k) s = k (some vs.length) s := by
  have hwalk : ∀ (vs : List Val) v, s.heap.Listed v vs mvNil → ∀ bound n (k : Nat × Val → ML α), vs.length < bound →
      (walkList bound v n >>= k) s = k (n + vs.length, mvNil) s := by
    intro vs
    induction vs with
    | nil =>
      rintro v rfl bound n k hb
      obtain ⟨bound, rfl⟩ := Nat.exists_eq_add_of_lt hb
      unfold walkList
      rw [bind_assoc, mlIsPair_nil]
      exact pure_bind_run
    | cons x vs ih =>
      rintro v ⟨d, ho, hd⟩ bound n k hb
      obtain ⟨bound, rfl⟩ := Nat.exists_eq_add_of_lt hb
      have hlt : vs.length < (x :: vs).length + bound := by
        rw [List.length_cons]
        omega
      unfold walkList
      rw [bind_assoc, mlIsPair_run ho]
      simp only [if_true, bind_assoc]
      rw [cdr_run ho, ih d hd _ _ _ hlt]
      simp only [List.length_cons, Nat.add_assoc, Nat.add_comm 1]
  have hlt := hl.spine.lt_next Heap.ends_of_imm
  unfold properListLength walkBound
  rw [bind_assoc, gets_bind_run, bind_assoc, hwalk vs v hl _ _ _ (Nat.lt_succ_of_lt hlt)]
  simp only [ne_eq, not_true_eq_false, if_false, Nat.zero_add]
  exact pure_bind_run

end Cells

/-! ## Meanings -/

section Special
variable {c : Config} (hnames : c.names = Config.created.names) {ev : Val → Val → ML Val} {rest env : Val}
include hnames

theorem refPair_named : refPair c ev c.symIf rest env = refIf ev rest env ∧
    refPair c ev c.symDefine rest env = refDefine c ev rest env ∧
    refPair c ev c.symLambda rest env = refLambda c rest env ∧ refPair c ev c.symBegin rest env = refBegin ev rest env ∧
    refPair c ev c.symLet rest env = refLet c ev rest env false false ∧
    refPair c ev c.symLetStar rest env = refLet c ev rest env true false ∧
      refPair c ev c.symAnd rest env = refAndOr ev rest env false ∧
    refPair c ev c.symOr rest env = refAndOr ev rest env true ∧
      refPair c ev c.symCond rest env = refCond c ev rest env := by
  simp only [Config.names, Config.created, List.cons.injEq] at hnames
  unfold refPair
  simp [hnames]

theorem mlIsSym_names {v : Val} (hv : v ∈ c.names) : mlIsSym v = true := by
  rw [hnames] at hv
  simp only [Config.names, Config.created, List.mem_cons, List.not_mem_nil, or_false] at hv
  rcases hv with rfl | rfl | rfl | rfl | rfl | rfl | rfl | rfl | rfl | rfl | rfl | rfl | rfl <;> rfl

end Special

section Meanings
variable {c : Config} {s t : State} {form form' head rest env v e : Val} {vs : List Val} {o : Except Status Val}

theorem refForm_run (ev : Val → Val → ML Val) (env : Val) (ho : s.heap.Has form (.pair head rest)) :
    refForm c ev form env s =
    (if mlIsSym head then refPair c ev head rest env else refCall c ev head rest env) s := by
  obtain ⟨x, rfl, hx⟩ := id ho
  simp only [refForm]
  rw [mlIsPair_run ho]
  simp only [if_true]
  rw [car_run ho, cdr_run ho]

/-- The meaning of a special form is what its rule says. -/
theorem meaning_special (env : Val) (hsym : mlIsSym head = true) (ho : s.heap.Has form (.pair head rest)) :
    SameAt (meaning c form env) (refPair c (meaning c) head rest env) s := by
  have hrun := refForm_run (c := c) (meaning c) env ho
  rw [if_pos hsym] at hrun
  exact meaning_rule.trans (.inr hrun)

theorem meaning_self {i : Imm} : SameAt (meaning c (.imm i) env) (pure (.imm i)) s := meaning_rule

end Meanings

/-- Without collections a heap that follows another one agrees with it. -/
theorem Heap.Ext.agree {c : Config} {h h' : Heap} (hx : h.Ext c h') (hd : ∀ s, c.collectDue s = false) :
    Heap.Agree (fun _ => True) h h' := by
  apply Heap.Agree.of_all
  intro a o ha
  obtain ⟨o', ho'⟩ := hx.alive hd a o ha
  obtain ⟨o₁, ho₁, hg⟩ := hx.old a o' (Heap.lt_next_of_get ha).2 ho'
  rw [ha] at ho₁
  cases ho₁
  exact ⟨o', ho', hg⟩

theorem Keeps.agree {c : Config} {s : State} {α : Type} {m : ML α} {a : α} (hm : Keeps c anyStatus s [] m)
    (hd : ∀ s, c.collectDue s = false) (hres : (m s).res = .ok a) :
    Heap.Agree (fun _ => True) s.heap (m s).state.heap := by
  have hk := (hm s .refl fun _ _ => id).2
  rw [hres] at hk
  exact hk.heap.agree hd

section Kept
variable {c : Config} {s t : State} {form env : Val} {o : Except Status Val}
variable (hc : ∀ n size, c.alloc n size = true) (hd : ∀ s, c.collectDue s = false)
include hc hd

/-- An evaluation leaves the heap as it was, but for the values in frames and the names
added to them. -/
theorem meaning_agree (ho : (meaning c form env s).Ends o) :
    s.heap.Agree (fun _ => True) (meaning c form env s).state.heap := by
  obtain ⟨least, h⟩ := (yields_iff hc hd).2 ⟨_, ho, rfl, .refl _⟩
  obtain ⟨hends, ht⟩ := h least (Nat.le_refl _) least (Nat.le_refl _)
  have hkeeps := mlEval_keeps (c := c.withEvalLimit least) (S := anyStatus) (fun _ => trivial) least s
    [] form env s .refl fun _ _ => id
  have hext : s.heap.Ext (c.withEvalLimit least) (meaning c form env s).state.heap := by
    have hk := hkeeps.2
    rw [← ht.heap]
    rw [Run.Ends] at hends
    rw [hends] at hk
    cases o with
    | ok v => exact hk.heap
    | error e => exact hk.2.heap
  exact hext.agree hd

end Kept

/-! ## and, or and cond -/

section Rules
variable {c : Config} {s : State} {ev : Val → Val → ML Val} {args clauses rest env e e' b d : Val} {es : List Val}
    {isOr : Bool} {i : Nat}

theorem refAndOrLoop_more (ho : s.heap.Has args (.pair e rest)) (hrest : s.heap.Has rest (.pair b d)) :
    refAndOrLoop ev env isOr (i + 1) args s = (do
      let v ← ev e env
      if (if isOr then mlTruthy v else !mlTruthy v) then
        pure v
      else
        let rest ← cdr args
        refAndOrLoop ev env isOr i rest : ML Val) s := by
  rw [refAndOrLoop, cdr_run ho, mlIsPair_run hrest]
  simp only [if_true]
  rw [car_run ho]

theorem refAndOrLoop_last (ho : s.heap.Has args (.pair e mvNil)) :
    refAndOrLoop ev env isOr (i + 1) args s = ev e env s := by
  rw [refAndOrLoop, cdr_run ho, mlIsPair_nil]
  simp only [Bool.false_eq_true, if_false]
  rw [car_run ho]

theorem refAndOr_run (hl : s.heap.Listed args (e :: es) mvNil) :
    refAndOr ev args env isOr s = refAndOrLoop ev env isOr (es.length + 1) args s := by
  obtain ⟨d, ho, -⟩ := id hl
  unfold refAndOr
  rw [if_neg ho.ne_nil, properListLength_run hl]
  rfl

theorem refIf_run (hl : s.heap.Listed args [e, b, d] mvNil) : refIf ev args env s = (do
    let v ← ev e env
    if mlTruthy v then ev b env else ev d env : ML Val) s := by
  obtain ⟨rest, ho, rest', ho', rest'', ho'', hnil⟩ := id hl
  unfold refIf
  rw [properListLength_run hl]
  simp only [List.length_cons, List.length_nil, Nat.zero_add, Nat.reduceAdd, ne_eq, Option.some.injEq,
    Nat.reduceEqDiff, not_false_eq_true, not_true_eq_false, and_false, if_false, if_true]
  rw [car_run ho, cdr_run ho, car_run ho', cdr_run ho', car_run ho'']

theorem refCond_run (hl : s.heap.Listed clauses es mvNil) :
    refCond c ev clauses env s = refCondLoop c ev env (es.length + 1) clauses s := by
  unfold refCond
  rw [properListLength_run hl]

theorem refCondLoop_more (ho : s.heap.Has clauses (.pair e rest)) (hclause : s.heap.Has e (.pair b d)) :
    refCondLoop c ev env (i + 1) clauses s = (if b = c.symElse then refBegin ev d env else do
      let v ← ev b env
      if mlTruthy v then
        if d = mvNil then pure v else refBegin ev d env
      else
        let rest ← cdr clauses
        refCondLoop c ev env i rest : ML Val) s := by
  rw [refCondLoop, mlIsPair_run ho]
  simp only [if_true]
  rw [car_run ho, mlIsPair_run hclause]
  simp only [Bool.not_true, Bool.false_eq_true, if_false]
  rw [car_run hclause, cdr_run hclause]

theorem refClosure_of_lambda {params body : Val} (hl : s.heap.Listed body (b :: es) mvNil)
    (ho : s.heap.Has args (.pair params body))
    (hparams : params = mvNil ∨ mlIsSym params = true ∨ ∃ x y, s.heap.Has params (.pair x y)) :
    refLambda c args env s = refClosure c params body env s := by
  have hargs : s.heap.Listed args (params :: b :: es) mvNil := ⟨_, ho, hl⟩
  unfold refLambda
  rw [properListLength_run hargs]
  simp only [List.length_cons, Option.all_some,
    show ¬ es.length + 1 + 1 < 2 by omega, decide_false, Bool.false_eq_true, if_false]
  rw [car_run ho, cdr_run ho]
  rcases hparams with rfl | hsym | ⟨x, y, hpair⟩
  · rw [mlIsPair_nil]
    rfl
  · cases params with
    | sym i => exact pure_bind_run
    | _ => cases hsym
  · rw [mlIsPair_run hpair]
    rfl

theorem refDefine_name {f : Val} (hf : mlIsSym f = true) (hl : s.heap.Listed args [f, e] mvNil) :
    refDefine c ev args env s = (do
      let value ← ev e env
      mlEnvDefine c env f value
      pure mvUndef : ML Val) s := by
  obtain ⟨rest, ho, last, hrest, -⟩ := id hl
  unfold refDefine
  rw [properListLength_run hl]
  simp only [List.length_cons, List.length_nil, Nat.zero_add, Nat.reduceAdd, Option.all_some,
    Nat.lt_irrefl, decide_false,
    Bool.false_eq_true, if_false]
  rw [car_run ho, cdr_run ho]
  simp only [hf, if_true, ne_eq, not_true_eq_false, if_false]
  rw [car_run hrest]

theorem refDefine_procedure {f first params body : Val} (hf : mlIsSym f = true)
    (hl : s.heap.Listed body (b :: es) mvNil)
    (ho : s.heap.Has args (.pair first body)) (hfirst : s.heap.Has first (.pair f params)) :
    refDefine c ev args env s = (do
      let value ← refClosure c params body env
      mlEnvDefine c env f value
      pure mvUndef : ML Val) s := by
  have hargs : s.heap.Listed args (first :: b :: es) mvNil := ⟨_, ho, hl⟩
  have hsym : mlIsSym first = false := by
    obtain ⟨x, rfl, -⟩ := hfirst
    rfl
  unfold refDefine
  rw [properListLength_run hargs]
  simp only [List.length_cons, Option.all_some,
    show ¬ es.length + 1 + 1 < 2 by omega, decide_false, Bool.false_eq_true, if_false]
  rw [car_run ho, cdr_run ho]
  simp only [hsym, Bool.false_eq_true, if_false]
  rw [mlIsPair_run hfirst]
  simp only [if_true]
  rw [car_run hfirst]
  simp only [hf, Bool.not_true, Bool.false_eq_true, if_false]
  rw [cdr_run hfirst]

end Rules


section Pairs
variable {c : Config} {s : State} {form form' next args rest clauses env e e' b f params body : Val}
    {es bs : List Val} {isOr : Bool}
variable (hc : ∀ n size, c.alloc n size = true) (hd : ∀ s, c.collectDue s = false)
    (hnames : c.names = Config.created.names)
include hc hd hnames

/-- The operands after the first count when it does not decide. -/
theorem andOr_meaning (isOr : Bool) (env : Val)
    (hform : s.heap.Listed form [if isOr then c.symOr else c.symAnd, e] rest)
    (hrest : s.heap.Listed rest (e' :: es) mvNil)
    (hnext : s.heap.Has next (.pair (if isOr then c.symOr else c.symAnd) rest)) :
    SameAt (meaning c form env) (do
      let v ← meaning c e env
      if (if isOr then mlTruthy v else !mlTruthy v) then pure v else meaning c next env) s := by
  have hsym : mlIsSym (if isOr then c.symOr else c.symAnd) = true := by
    apply mlIsSym_names hnames
    cases isOr <;> simp [Config.names]
  have hrule : ∀ rest, refPair c (meaning c) (if isOr then c.symOr else c.symAnd) rest env = refAndOr
      (meaning c) rest env isOr := by
    intro rest
    cases isOr
    · exact (refPair_named hnames).2.2.2.2.2.2.1
    · exact (refPair_named hnames).2.2.2.2.2.2.2.1
  obtain ⟨args, ho, _, hargs, rfl⟩ := hform
  obtain ⟨d, hcell, -⟩ := id hrest
  have hmeans := meaning_special (c := c) env hsym ho
  rw [hrule] at hmeans
  have hargs' : s.heap.Listed args (e :: e' :: es) mvNil := ⟨_, hargs, hrest⟩
  apply hmeans.trans
  apply SameAt.trans (.inr ((refAndOr_run hargs').trans (refAndOrLoop_more hargs hcell)))
  apply SameAt.refl.bind
  rintro v t hv rfl
  apply SameAt.ite fun _ => .refl
  intro _
  have hagree := meaning_agree (o := .ok v) hc hd hv
  have hmeans' := meaning_special (c := c) env hsym (hagree.has_eq Val.in_all hnext rfl)
  rw [hrule] at hmeans'
  apply SameAt.trans _ hmeans'.symm
  right
  rw [cdr_run (hagree.has_eq Val.in_all hargs rfl), refAndOr_run (hrest.agree hagree)]
  rfl

/-- `(and e1 e2 ...)` and `(if e1 (and e2 ...) #f)`. -/
theorem and_meaning (hform : s.heap.Listed form [c.symAnd, e] rest) (hrest : s.heap.Listed rest (e' :: es) mvNil)
    (hnext : s.heap.Has next (.pair c.symAnd rest)) (hform' : s.heap.Listed form' [c.symIf, e, next, mvFalse] mvNil) :
    SameAt (meaning c form env) (meaning c form' env) s := by
  have hand := andOr_meaning hc hd hnames false env hform hrest hnext
  obtain ⟨args, ho, hargs⟩ := hform'
  have hif := meaning_special (c := c) env (mlIsSym_names hnames (by simp [Config.names])) ho
  rw [(refPair_named hnames).1] at hif
  apply hand.trans
  apply SameAt.trans _ (hif.trans (.inr (refIf_run hargs))).symm
  apply SameAt.refl.bind
  rintro v t - -
  by_cases hv : v = mvFalse
  · rw [hv]
    exact meaning_self.symm
  · have htruthy : mlTruthy v = true := by simpa [mlTruthy] using hv
    simpa [htruthy] using SameAt.refl


/-- The first clause, and the rest where its test is false. -/
theorem condClause_meaning (env : Val) {clause t : Val} (hform : s.heap.Listed form [c.symCond, clause] rest)
    (hrest : s.heap.Listed rest es mvNil) (hclause : s.heap.Has clause (.pair t b))
    (hnext : s.heap.Has next (.pair c.symCond rest)) :
    SameAt (meaning c form env) (if t = c.symElse then refBegin (meaning c) b env else do
      let v ← meaning c t env
      if mlTruthy v then
        if b = mvNil then pure v else refBegin (meaning c) b env
      else
        meaning c next env) s := by
  have hsym : mlIsSym c.symCond = true := mlIsSym_names hnames (by simp [Config.names])
  have hrule : ∀ rest, refPair c (meaning c) c.symCond rest env = refCond c (meaning c) rest env :=
    fun rest => (refPair_named hnames).2.2.2.2.2.2.2.2
  obtain ⟨args, ho, _, hargs, rfl⟩ := hform
  have hmeans := meaning_special (c := c) env hsym ho
  rw [hrule] at hmeans
  have hargs' : s.heap.Listed args (clause :: es) mvNil := ⟨_, hargs, hrest⟩
  apply hmeans.trans
  apply SameAt.trans (.inr ((refCond_run hargs').trans (refCondLoop_more hargs hclause)))
  apply SameAt.ite fun _ => .refl
  intro _
  apply SameAt.refl.bind
  rintro v t hv rfl
  apply SameAt.ite fun _ => .refl
  intro _
  have hagree := meaning_agree (o := .ok v) hc hd hv
  have hmeans' := meaning_special (c := c) env hsym (hagree.has_eq Val.in_all hnext rfl)
  rw [hrule] at hmeans'
  apply SameAt.trans _ hmeans'.symm
  right
  rw [cdr_run (hagree.has_eq Val.in_all hargs rfl), refCond_run (hrest.agree hagree)]
  rfl

/-- `(cond (t b ...) rest ...)` and `(if t (begin b ...) (cond rest ...))`. -/
theorem condThen_meaning {clause t thenForm : Val} (hform : s.heap.Listed form [c.symCond, clause] rest)
    (hrest : s.heap.Listed rest es mvNil) (hclause : s.heap.Has clause (.pair t b)) (helse : t ≠ c.symElse)
    (hb : b ≠ mvNil)
    (hnext : s.heap.Has next (.pair c.symCond rest)) (hthen : s.heap.Has thenForm (.pair c.symBegin b))
    (hform' : s.heap.Listed form' [c.symIf, t, thenForm, next] mvNil) :
    SameAt (meaning c form env) (meaning c form' env) s := by
  have hcond := condClause_meaning hc hd hnames env hform hrest hclause hnext
  rw [if_neg helse] at hcond
  obtain ⟨args, ho, hargs⟩ := hform'
  have hif := meaning_special (c := c) env (mlIsSym_names hnames (by simp [Config.names])) ho
  rw [(refPair_named hnames).1] at hif
  apply hcond.trans
  apply SameAt.trans _ (hif.trans (.inr (refIf_run hargs))).symm
  apply SameAt.refl.bind
  rintro v u hv rfl
  apply SameAt.ite _ fun _ => .refl
  intro _
  rw [if_neg hb]
  have hagree := meaning_agree (o := .ok v) hc hd hv
  have hbegin := meaning_special (c := c) env (mlIsSym_names hnames (by simp [Config.names]))
    (hagree.has_eq Val.in_all hthen rfl)
  rw [(refPair_named hnames).2.2.2.1] at hbegin
  exact hbegin.symm

/-- `(cond (t) rest ...)` and `(or t (cond rest ...))`. -/
theorem condTest_meaning {clause t : Val} (hform : s.heap.Listed form [c.symCond, clause] rest)
    (hrest : s.heap.Listed rest es mvNil) (hclause : s.heap.Has clause (.pair t mvNil)) (helse : t ≠ c.symElse)
    (hnext : s.heap.Has next (.pair c.symCond rest)) (hform' : s.heap.Listed form' [c.symOr, t, next] mvNil) :
    SameAt (meaning c form env) (meaning c form' env) s := by
  have hcond := condClause_meaning hc hd hnames env hform hrest hclause hnext
  rw [if_neg helse] at hcond
  obtain ⟨args, ho, last, hargs, _, hlast, rfl⟩ := hform'
  have hor := meaning_special (c := c) env (mlIsSym_names hnames (by simp [Config.names])) ho
  rw [(refPair_named hnames).2.2.2.2.2.2.2.1] at hor
  have hargs' : s.heap.Listed args [t, next] mvNil := ⟨_, hargs, _, hlast, rfl⟩
  apply hcond.trans
  apply SameAt.trans _ (hor.trans (.inr ((refAndOr_run hargs').trans (refAndOrLoop_more hargs hlast)))).symm
  apply SameAt.refl.bind
  rintro v u hv rfl
  simp only [if_true]
  apply SameAt.ite fun _ => .refl
  intro _
  have hagree := meaning_agree (o := .ok v) hc hd hv
  right
  rw [cdr_run (hagree.has_eq Val.in_all hargs rfl)]
  exact (refAndOrLoop_last (hagree.has_eq Val.in_all hlast rfl)).symm

omit hc hd in
/-- `(cond (else b ...) rest ...)` and `(begin b ...)`. -/
theorem condElse_meaning {clause : Val} (hform : s.heap.Listed form [c.symCond, clause] rest)
    (hrest : s.heap.Listed rest es mvNil) (hclause : s.heap.Has clause (.pair c.symElse b))
    (hform' : s.heap.Has form' (.pair c.symBegin b)) : SameAt (meaning c form env) (meaning c form' env) s := by
  obtain ⟨args, ho, _, hargs, rfl⟩ := hform
  have hcond := meaning_special (c := c) env (mlIsSym_names hnames (by simp [Config.names])) ho
  have hargs' : s.heap.Listed args (clause :: es) mvNil := ⟨_, hargs, hrest⟩
  rw [(refPair_named hnames).2.2.2.2.2.2.2.2] at hcond
  have hrun : refCond c (meaning c) args env s = refBegin (meaning c) b env s := by
    rw [refCond_run hargs', refCondLoop_more hargs hclause, if_pos rfl]
  have hbegin := meaning_special (c := c) env (mlIsSym_names hnames (by simp [Config.names])) hform'
  rw [(refPair_named hnames).2.2.2.1] at hbegin
  exact (hcond.trans (.inr hrun)).trans hbegin.symm

omit hc hd in
/-- `(define (f . params) body ...)` and `(define f (lambda params body ...))`. -/
theorem define_meaning {first lam : Val} (hform : s.heap.Listed form [c.symDefine, first] body)
    (hbody : s.heap.Listed body (b :: bs) mvNil) (hfirst : s.heap.Has first (.pair f params)) (hf : mlIsSym f = true)
    (hparams : params = mvNil ∨ mlIsSym params = true ∨ ∃ x y, s.heap.Has params (.pair x y))
    (hlam : s.heap.Listed lam [c.symLambda, params] body) (hform' : s.heap.Listed form' [c.symDefine, f, lam] mvNil) :
    SameAt (meaning c form env) (meaning c form' env) s := by
  have hrule : ∀ args, refPair c (meaning c) c.symDefine args env = refDefine c (meaning c) args env :=
    fun args => (refPair_named hnames).2.1
  have hsym : mlIsSym c.symDefine = true := mlIsSym_names hnames (by simp [Config.names])
  obtain ⟨args, ho, _, hargs, rfl⟩ := hform
  have hleft := meaning_special (c := c) env hsym ho
  rw [hrule] at hleft
  obtain ⟨args', ho', hargs'⟩ := hform'
  have hright := meaning_special (c := c) env hsym ho'
  rw [hrule] at hright
  obtain ⟨largs, hlo, _, hlargs, rfl⟩ := hlam
  have hlambda := meaning_special (c := c) env (mlIsSym_names hnames (by simp [Config.names])) hlo
  rw [(refPair_named hnames).2.2.1] at hlambda
  have hclosure := hlambda.trans (.inr (refClosure_of_lambda hbody hlargs hparams))
  apply (hleft.trans (.inr (refDefine_procedure hf hbody hargs hfirst))).trans
  apply SameAt.trans _ (hright.trans (.inr (refDefine_name hf hargs'))).symm
  exact hclosure.symm.bind fun _ _ _ _ => .refl

end Pairs

end Microlisp
