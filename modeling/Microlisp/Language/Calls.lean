import Microlisp.Language.Forms
/-!
# Calls and forms

A call evaluates its head and its operands, makes a frame and evaluates the body of the closure
there. With what primitives do given, forms do in the heap what the language says, by induction
on the height of a derivation.
-/
namespace Microlisp

open Prog Microlisp.Language

/-- Primitives do what the language says. -/
def PrimsTell (c : Config) : Prop :=
  ∀ (fs : List Nat) (w : World) (s : State) (fn : PrimFn) (xs : List Value) (argv : List Val), s.Stand fs xs argv →
    Tells State.Stands (prim fn xs) (callPrim c fn argv) fs w s

section Operands
variable {fs : List Nat} {w : World} {s : State} {v e : Val} {es : List Datum} {env : List Nat}
    {ev : Datum → List Nat → Sem Value}
  {rev : Val → Val → ML Val} {d : Datum} (hev : TellsAll ev rev)
include hev

theorem operands_tells (hv : s.Form (.list es .nil) v) (hchain : s.heap.Chain fs env e) :
    Tells State.Stand (operands ev env es) (refArgs rev e es.length v) fs w s := by
  induction es generalizing v fs w s with
  | nil => exact tells_pure fun _ => .nil
  | cons d ds ih =>
    obtain ⟨p, q, ho, hp, hq⟩ := hv.pair
    rw [List.length_cons]
    unfold refArgs operands
    refine .run (car_run ho) ?_
    apply Tells.bind (hev _ _ _ _ _ _ _ hp hchain)
    intro fs' x y w' s' hon hx
    refine .run (cdr_run (hon.heap.has_eq Val.in_all ho rfl)) ?_
    apply Tells.bind (ih (hq.later hon) (hchain.onward hon))
    exact fun fs'' xs ys w'' s'' hon' hxs => tells_pure fun _ => .cons (hx.later hon') hxs

end Operands

section Arguments
variable {fs : List Nat} {w : World} {s : State} {k : Nat} {env : List Nat} {inner : Val} {xs : List Value}
    {argv : List Val}
  {c : Config} (hc : ∀ n size, c.alloc n size = true)
include hc

/-- The parameters in turn; what is left of the list is the name for the other arguments. -/
theorem refParams_tells {params : List Bytes} {rest : Option Bytes} {ps : Val} (hv : s.Form (parameters params rest) ps)
    (hargs : s.Stand fs xs argv) (hlen : xs.length = params.length) (hchain : s.heap.Chain fs (k :: env) inner) :
    Tells (fun _ _ b s' => s'.Form ((rest.map Datum.sym).getD .nil) b) (bindNames (k :: env) (params.zip xs))
      (refParams c inner argv ps) fs w s := by
  induction params generalizing xs argv ps fs w s with
  | nil =>
    cases List.length_eq_zero_iff.1 hlen
    cases hargs
    exact tells_pure fun _ => hv
  | cons name params ih =>
    obtain ⟨x, xs, rfl⟩ := List.exists_cons_of_length_eq_add_one hlen
    obtain ⟨y, argv, hx, hxs, rfl⟩ := List.forall₂_cons_left_iff.1 hargs
    obtain ⟨p, q, ho, hp, hq⟩ := hv.pair
    unfold refParams
    refine .run (car_run ho) ?_
    apply (define_tells hc hchain hp.sym hx).bind
    intro fs' _ _ w' s' hon _
    refine .run (cdr_run (hon.heap.has_eq Val.in_all ho rfl)) ?_
    exact ih (State.Form.later hq hon) (State.Stand.later hxs hon) (by simpa using hlen) (hchain.onward hon)

/-- The list of the arguments after the parameters. -/
theorem restList_tells (hd : ∀ s, c.collectDue s = false) (hargs : s.Stand fs xs argv) :
    Tells State.Stands (pure (.list xs) : Sem Value) (argv.foldrM (mlGcAllocPair c) mvNil) fs w s := by
  induction xs generalizing argv with
  | nil =>
    cases hargs
    exact tells_pure fun _ => rfl
  | cons x xs ih =>
    obtain ⟨y, argv, hx, hxs, rfl⟩ := List.forall₂_cons_left_iff.1 hargs
    rw [List.foldrM_cons, show (pure (.list (x :: xs)) : Sem Value) = (do
      let l ← pure (.list xs)
      pure (.pair x l)) from rfl]
    apply Tells.bind (ih hxs)
    intro fs' l v w' s' hon hl
    exact pair_tells hc hd (State.Stands.later hx hon) hl

theorem callFrame_tells (hd : ∀ s, c.collectDue s = false) {params : List Bytes} {rest : Option Bytes} {cl : Closure}
    (hchain : s.heap.Chain fs env cl.env) (hparams : s.Form (parameters params rest) cl.params)
    (hvariadic : cl.variadic = rest.isSome) (harity : cl.arityMin.toNat = params.length) (hargs : s.Stand fs xs argv) :
    Tells (fun fs' k inner s' => s'.heap.Chain fs' (k :: env) inner) (callFrame params rest env xs)
      (refBind c cl argv) fs w s := by
  have hlen : xs.length = argv.length := List.Forall₂.length_eq hargs
  have htake : s.Stand fs (xs.take params.length) (argv.take params.length) := List.forall₂_take _ hargs
  have hcheck : ∀ m : ML Val, (if rest.isSome && decide (argv.length < params.length) then fail .errArity
      else if !rest.isSome && decide (argv.length ≠ params.length) then fail .errArity else m) =
      if xs.length < params.length ∨ rest = none ∧ xs.length ≠ params.length then fail .errArity else m := by
    intro m
    rw [hlen]
    cases rest with
    | none => by_cases heq : argv.length = params.length <;> simp [heq]
    | some name => simp
  unfold refBind callFrame
  rw [hvariadic, harity, hcheck]
  refine .ite Iff.rfl (fun _ => tells_fail) fun harity => ?_
  apply (newFrame_tells hc hd hchain).bind
  intro fs' k inner w' s' hon hinner
  have hnum : (xs.take params.length).length = params.length := by
    rw [List.length_take]
    omega
  have hzip : params.zip xs = params.zip (xs.take params.length) := by
    rw [List.zip_eq_zip_take_min, Nat.min_eq_left (by omega), List.take_length]
  rw [hzip]
  apply (refParams_tells hc (hparams.later hon) (htake.later hon) hnum hinner).bind
  intro fs'' _ last w'' s'' hon' hlast
  have hlater := hon.trans hon'
  cases rest with
  | none => exact tells_pure fun _ => hinner.onward hon'
  | some name =>
    have hname : s''.Form (.sym name) last := hlast
    have hdrop : s''.Stand fs'' (xs.drop params.length) (argv.drop params.length) :=
      List.forall₂_drop _ (hargs.later hlater)
    simp only [Option.isSome_some, if_true, (mlIsSym_form hname).2 ⟨name, rfl⟩, Bool.not_true,
      Bool.false_eq_true, if_false]
    apply (restList_tells hc hd hdrop).unseen
    intro fs₃ restList w₃ s₃ hon'' hl
    apply (define_tells hc ((hinner.onward hon').onward hon'') (hname.later hon'').sym hl).bind
    exact fun fs₄ _ _ w₄ s₄ hon₄ _ => tells_pure fun _ => ((hinner.onward hon').onward hon'').onward hon₄

end Arguments

theorem primFields_run {s : State} {α : Type} {p : Primitive} {v : Val} {k : Primitive → ML α}
    (ho : s.heap.Has v p.obj) :
    (primFields v >>= k) s = k p s := by
  unfold primFields
  rw [bind_assoc, asObj_run ho]
  exact pure_bind_run

section Calls
variable {fs : List Nat} {w : World} {s : State} {env : List Nat} {e : Val} {ev : Datum → List Nat → Sem Value}
    {rev : Val → Val → ML Val}
  {c : Config} (hc : ∀ n size, c.alloc n size = true) (hd : ∀ s, c.collectDue s = false) (hprim : PrimsTell c)
  (hev : TellsAll ev rev)
include hc hd hprim hev

theorem apply_tells {f : Value} {proc : Val} {xs : List Value} {argv : List Val} (hf : s.Stands fs f proc)
    (hargs : s.Stand fs xs argv) :
    Tells State.Stands (Language.apply ev f xs) (refApply c rev proc argv) fs w s := by
  have hlen : xs.length = argv.length := List.Forall₂.length_eq hargs
  unfold refApply
  refine .run (mlIsPrim_stands hf) ?_
  cases f with
  | prim name fn arityMin arityMax =>
    have ho : s.heap.Has proc (Primitive.obj ⟨name, fn, arityMin, arityMax⟩) := hf
    refine .run (primFields_run ho) ?_
    unfold Language.apply
    refine .ite ?_ (fun _ => tells_fail) fun _ => hprim _ _ _ _ _ _ hargs
    simp [hlen]
  | closure params rest body cenv =>
    obtain ⟨cl, ho, hchain, hparams, hbody, hvariadic, harity⟩ := id hf
    refine .run (mlIsClosure_stands hf) (.run (closureFields_run ho) ?_)
    apply Tells.bind (callFrame_tells hc hd hchain hparams hvariadic harity hargs)
    intro fs' k inner w' s' hon hinner
    have hbody' : s.Form (.list body .nil) cl.body := hbody
    exact begin_tells hev (hbody'.later hon) hinner
  | _ => exact .run (mlIsClosure_stands hf) tells_fail

theorem call_tells {head rest : Datum} {p q : Val} (hp : s.Form head p) (hq : s.Form rest q)
    (hchain : s.heap.Chain fs env e) :
    Tells State.Stands (call ev head rest env) (refCall c rev p q e) fs w s := by
  apply Tells.bind (hev _ _ _ _ _ _ _ hp hchain)
  intro fs' f proc w' s' hon hf
  have hq' := hq.later hon
  have hrun : (refOperands rev q e >>= refApply c rev proc) s' =
      (rest.elems.map List.length).elim (fail .errSyntax : ML Val) (fun n => refArgs rev e n q >>=
        refApply c rev proc) s' := by
    unfold refOperands
    rw [bind_assoc, properListLength_form hq']
    cases rest.elems <;> rfl
  refine .run hrun ?_
  cases helems : rest.elems with
  | none => exact tells_fail
  | some es =>
    have hlist : s'.Form (.list es .nil) q := Datum.eq_list helems ▸ hq'
    apply Tells.bind (operands_tells hev hlist (hchain.onward hon))
    intro fs'' xs argv w'' s'' hon' hxs
    exact apply_tells hc hd hprim hev (hf.later hon') hxs

/-! ## Forms -/

omit hc hd hprim hev in
/-- A special form fails unless its operands are a proper list. -/
theorem special_tells {rule : List Datum → Sem Value} {n : ML Val} {rest : Datum}
    (hrule : ∀ es, rest = .list es .nil → Tells State.Stands (rule es) n fs w s)
    (hbad : rest.elems = none → n s = (fail .errSyntax : ML Val) s) :
    Tells State.Stands (special rest rule) n fs w s := by
  unfold special
  cases helems : rest.elems with
  | none => exact tells_fails (hbad helems)
  | some es => exact hrule es (Datum.eq_list helems)

theorem symbolForm_tells (hnames : c.names = Config.created.names) {name : Bytes} {rest : Datum} {p q : Val}
    (hp : s.Form (.sym name) p) (hq : s.Form rest q) (hchain : s.heap.Chain fs env e) :
    Tells State.Stands (symbolForm ev name rest env) (refPair c rev p q e) fs w s := by
  apply Corresponds.given
  intro hI
  have hname : ∀ {keyword : String} {v : Val}, (keyword, v) ∈ specialForms.zip c.names →
      (name = ascii keyword ↔ p = v) :=
    fun h => Heap.stands_sym_iff hp.sym (keyword_stands hnames hI h)
  have hnil : rest.elems = none → q ≠ mvNil := by
    intro hnone hq'
    rw [(form_nil hq).1 hq'] at hnone
    cases hnone
  have hlen : ∀ {n : Option Nat → ML Val}, rest.elems = none → (properListLength q >>= n) s = n none s := by
    intro n hnone
    rw [properListLength_form hq, hnone]
    rfl
  have hrule : ∀ {keyword : String} {v : Val} {rule : List Datum → Sem Value} {n m' : ML Val} {m : Sem Value},
      (keyword, v) ∈ specialForms.zip c.names →
        (∀ es, s.Form (.list es .nil) q → Tells State.Stands (rule es) n fs w s) →
      (rest.elems = none → n s = (fail .errSyntax : ML Val) s) → Tells State.Stands m m' fs w s →
      Tells State.Stands (if name = ascii keyword then special rest rule else m) (if p = v then n else m') fs w s := by
    intro keyword v rule n m' m hmem hes hbad hm
    refine .ite (hname hmem) (fun _ => special_tells (fun es he => hes es ?_) hbad) fun _ => hm
    rwa [he] at hq
  unfold symbolForm refPair
  apply hrule (by simp [specialForms, Config.names]) (fun es h => quote_tells h)
  · intro hnone
    exact hlen hnone
  apply hrule (by simp [specialForms, Config.names]) (fun es h => ifForm_tells hev h hchain)
  · intro hnone
    exact hlen hnone
  apply hrule (by simp [specialForms, Config.names]) (fun es h => defineForm_tells hev hc hd h hchain)
  · intro hnone
    exact hlen hnone
  apply hrule (by simp [specialForms, Config.names]) (fun es h => setForm_tells hev h hchain)
  · intro hnone
    exact hlen hnone
  apply hrule (by simp [specialForms, Config.names]) (fun es h => lambdaForm_tells hc hd h hchain)
  · intro hnone
    exact hlen hnone
  apply hrule (by simp [specialForms, Config.names]) (fun es h => begin_tells hev h hchain)
  · intro hnone
    unfold refBegin
    rw [if_neg (hnil hnone)]
    exact hlen hnone
  apply hrule (by simp [specialForms, Config.names]) (fun es h => letForm_tells hev hc hd h hchain)
  · intro hnone
    exact hlen hnone
  apply hrule (by simp [specialForms, Config.names]) (fun es h => letForm_tells hev hc hd h hchain)
  · intro hnone
    exact hlen hnone
  apply hrule (by simp [specialForms, Config.names]) (fun es h => letForm_tells hev hc hd h hchain)
  · intro hnone
    exact hlen hnone
  apply hrule (by simp [specialForms, Config.names]) (fun es h => andOr_tells hev h hchain)
  · intro hnone
    unfold refAndOr
    rw [if_neg (hnil hnone)]
    exact hlen hnone
  apply hrule (by simp [specialForms, Config.names]) (fun es h => andOr_tells hev h hchain)
  · intro hnone
    unfold refAndOr
    rw [if_neg (hnil hnone)]
    exact hlen hnone
  apply hrule (by simp [specialForms, Config.names]) (fun es h => cond_tells hev hnames h hchain)
  · intro hnone
    exact hlen hnone
  exact call_tells hc hd hprim hev hp hq hchain

theorem form_tells (hnames : c.names = Config.created.names) {d : Datum} {v : Val} (hv : s.Form d v)
    (hchain : s.heap.Chain fs env e) : Tells State.Stands (form ev d env) (refForm c rev v e) fs w s := by
  cases d with
  | sym name =>
    obtain ⟨i, rfl, -⟩ := id hv
    exact lookup_tells hchain hv.sym
  | pair head rest =>
    obtain ⟨p, q, ho, hp, hq⟩ := hv.pair
    refine .run (refForm_run rev e ho) ?_
    cases head with
    | sym name =>
      rw [if_pos ((mlIsSym_form hp).2 ⟨name, rfl⟩)]
      exact symbolForm_tells hc hd hprim hev hnames hp hq hchain
    | _ =>
      rw [if_neg (mt (mlIsSym_form hp).1 (by simp))]
      exact call_tells hc hd hprim hev hp hq hchain
  | str bytes =>
    obtain ⟨a, rfl, -, ho⟩ := id hv
    have hrun : refForm c rev (.obj a) e s = (pure (.obj a) : ML Val) s := mlIsPair_form hv
    exact .run hrun (tells_pure fun _ => hv.stands)
  | fix x =>
    obtain ⟨-, rfl⟩ := id hv
    exact tells_pure fun _ => hv.stands
  | nil =>
    cases id hv
    exact tells_pure fun _ => hv.stands
  | bool x =>
    cases id hv
    cases x <;> exact tells_pure fun _ => hv.stands

omit hev in
/-- Forms mean in the heap what the language says. -/
theorem eval_tells (hnames : c.names = Config.created.names) (n : Nat) : TellsAll (eval n) (refEval c n) := by
  induction n with
  | zero => exact fun _ _ _ _ _ _ _ _ _ => .timeout
  | succ n ih => exact fun _ _ _ _ _ _ _ hv hchain => form_tells hc hd hprim ih hnames hv hchain

end Calls

end Microlisp
