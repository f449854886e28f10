import Microlisp.Expansions
/-!
# Derived forms

`and`, `cond` and the short `define` have their own handlers in the evaluator. Each of them does
what a longer form does that is put together from `if`, `begin`, `or` and `lambda`.
-/
namespace Microlisp

open Prog

/-- In the heap, the first form is a shorter way to write the second one. -/
inductive Expands (c : Config) (h : Heap) : Val → Val → Prop
  /-- `(and e1 e2 ...)` is `(if e1 (and e2 ...) #f)`. -/
  | and {form form' next rest e e' : Val} {es : List Val} (hform : h.Listed form [c.symAnd, e] rest)
      (hrest : h.Listed rest (e' :: es) mvNil) (hnext : h.Has next (.pair c.symAnd rest))
      (hform' : h.Listed form' [c.symIf, e, next, mvFalse] mvNil) : Expands c h form form'
  /-- `(cond (t b ...) rest ...)` is `(if t (begin b ...) (cond rest ...))`. -/
  | condThen {form form' next thenForm rest clause t b : Val} {es : List Val}
      (hform : h.Listed form [c.symCond, clause] rest)
      (hrest : h.Listed rest es mvNil) (hclause : h.Has clause (.pair t b)) (helse : t ≠ c.symElse) (hb : b ≠ mvNil)
      (hnext : h.Has next (.pair c.symCond rest)) (hthen : h.Has thenForm (.pair c.symBegin b))
      (hform' : h.Listed form' [c.symIf, t, thenForm, next] mvNil) : Expands c h form form'
  /-- `(cond (t) rest ...)` is `(or t (cond rest ...))`. -/
  | condTest {form form' next rest clause t : Val} {es : List Val} (hform : h.Listed form [c.symCond, clause] rest)
      (hrest : h.Listed rest es mvNil) (hclause : h.Has clause (.pair t mvNil)) (helse : t ≠ c.symElse)
      (hnext : h.Has next (.pair c.symCond rest)) (hform' : h.Listed form' [c.symOr, t, next] mvNil) :
      Expands c h form form'
  /-- `(cond (else b ...) rest ...)` is `(begin b ...)`. -/
  | condElse {form form' rest clause b : Val} {es : List Val} (hform : h.Listed form [c.symCond, clause] rest)
      (hrest : h.Listed rest es mvNil) (hclause : h.Has clause (.pair c.symElse b))
      (hform' : h.Has form' (.pair c.symBegin b)) :
      Expands c h form form'
  /-- `(define (f . params) body ...)` is `(define f (lambda params body ...))`. -/
  | define {form form' first lam f params body b : Val} {bs : List Val}
      (hform : h.Listed form [c.symDefine, first] body)
      (hbody : h.Listed body (b :: bs) mvNil) (hfirst : h.Has first (.pair f params)) (hf : mlIsSym f = true)
      (hparams : params = mvNil ∨ mlIsSym params = true ∨ ∃ x y, h.Has params (.pair x y))
      (hlam : h.Listed lam [c.symLambda, params] body) (hform' : h.Listed form' [c.symDefine, f, lam] mvNil) :
      Expands c h form form'

/-- With memory to spare, no collections and no depth limit in the way, a derived form evaluates to what
its expansion does: the outcome, the output, the objects and the frames are the same, whatever the
operands are and do. -/
theorem expands_yields {c : Config} (hc : ∀ n size, c.alloc n size = true) (hd : ∀ s, c.collectDue s = false)
    (hnames : c.names = Config.created.names) {s t : State} {form form' env : Val} {o : Except Status Val}
    (h : Expands c s.heap form form') : Yields c s form env o t ↔ Yields c s form' env o t := by
  apply yields_congr hc hd
  cases h with
  | and hform hrest hnext hform' => exact and_meaning hc hd hnames hform hrest hnext hform'
  | condThen hform hrest hclause helse hb hnext hthen hform' =>
    exact condThen_meaning hc hd hnames hform hrest hclause helse hb hnext hthen hform'
  | condTest hform hrest hclause helse hnext hform' =>
    exact condTest_meaning hc hd hnames hform hrest hclause helse hnext hform'
  | condElse hform hrest hclause hform' => exact condElse_meaning hnames hform hrest hclause hform'
  | define hform hbody hfirst hf hparams hlam hform' =>
    exact define_meaning hnames hform hbody hfirst hf hparams hlam hform'

/-! ## A conjunction -/

/-- `(and 1 2)` at 4, and `(if 1 (and 2) #f)` at 9. -/
def State.conjunction : State :=
  { State.created with
    heap := [(mlMakeFix 2, mvNil), (mlMakeFix 1, .obj 2), (Val.sym 9, .obj 3), (.sym 9, .obj 2), (mvFalse, mvNil),
      (.obj 5, .obj 6),
      (mlMakeFix 1, .obj 7), (.sym 1, .obj 8)].foldl (fun h cell => h.alloc (.pair cell.1 cell.2)) State.created.heap }

theorem State.conjunction_expands :
    Expands Config.created.withoutCollections State.conjunction.heap (.obj 4) (.obj 9) := by
  have hcell : ∀ {a : Nat} {x y : Val}, State.conjunction.heap.get a = some (.pair x y) →
      State.conjunction.heap.Has (.obj a) (.pair x y) := fun ho => ⟨_, rfl, ho⟩
  have hform : State.conjunction.heap.Listed (.obj 4) [.sym 9, mlMakeFix 1] (.obj 2) :=
    ⟨.obj 3, hcell rfl, .obj 2, hcell rfl, rfl⟩
  have hrest : State.conjunction.heap.Listed (.obj 2) [mlMakeFix 2] mvNil := ⟨mvNil, hcell rfl, rfl⟩
  have hnext : State.conjunction.heap.Has (.obj 5) (.pair (.sym 9) (.obj 2)) := hcell rfl
  exact .and hform hrest hnext ⟨.obj 8, hcell rfl, .obj 7, hcell rfl, .obj 6, hcell rfl, mvNil, hcell rfl, rfl⟩

theorem expands_yields_conjunction :
    Yields Config.created.withoutCollections .conjunction (.obj 9) (.obj 1) (.ok (mlMakeFix 2))
      (mlEval Config.created.withoutCollections 4 (.obj 4) (.obj 1) .conjunction).state := by
  have htwo : (mlEval Config.created.withoutCollections 4 (.obj 4) (.obj 1) .conjunction).res = .ok (mlMakeFix 2) := by
    decide +kernel
  have hyields : Yields Config.created.withoutCollections .conjunction (.obj 4) (.obj 1) (.ok (mlMakeFix 2)) _ :=
    yields_of_mlEval (fun _ _ => rfl) (fun _ => rfl) htwo (by simp)
  exact (expands_yields (c := Config.created.withoutCollections) (fun _ _ => rfl)
    (fun _ => rfl) rfl State.conjunction_expands).1 hyields

end Microlisp
