import Microlisp.Expansions
/-!
# let*

`handle_let_family` makes one frame for all the bindings of a `let*`. So a `let*` is not a
nest of `let`s: it is a body that starts with definitions, and a procedure that an earlier
initial value has made sees the later names too.
-/
namespace Microlisp

open Prog

/-! ## Shapes -/

/-- A binding `(name expr)`. -/
def Heap.Binding (h : Heap) (binding : Val) : Prop := ∃ name expr, h.Listed binding [name, expr] mvNil ∧
    mlIsSym name = true

/-- The forms `(define name expr)`, for these bindings. -/
def Heap.Defines (c : Config) (h : Heap) (defs bindings : List Val) : Prop :=
  List.Forall₂ (fun d b => h.Has d (.pair c.symDefine b)) defs bindings

/-- `(let* (binding ...) . body)`. -/
def Heap.LetStar (c : Config) (h : Heap) (form : Val) (bindings : List Val) (body : Val) : Prop :=
  ∃ list, h.Listed form [c.symLetStar, list] body ∧ h.Listed list bindings mvNil

/-- `(let () (define name expr) ... . body)`. -/
def Heap.LetDefines (c : Config) (h : Heap) (form : Val) (bindings : List Val) (body : Val) : Prop :=
  ∃ defs, h.Listed form (c.symLet :: mvNil :: defs) body ∧ h.Defines c defs bindings

section Shapes
variable {c : Config} {h h' : Heap} {v tail : Val} {xs ys bindings defs : List Val}

theorem Heap.Listed.append (hx : h.Listed v xs tail) (hy : h.Listed tail ys mvNil) : h.Listed v (xs ++ ys) mvNil := by
  induction xs generalizing v with
  | nil => exact hx ▸ hy
  | cons x xs ih =>
    obtain ⟨d, ho, hd⟩ := hx
    exact ⟨d, ho, ih hd⟩

theorem Heap.Binding.agree (hb : h.Binding v) (hx : Heap.Agree (fun _ => True) h h') : h'.Binding v := by
  obtain ⟨name, expr, hl, hsym⟩ := hb
  exact ⟨name, expr, hl.agree hx, hsym⟩

theorem Heap.Defines.agree (hf : h.Defines c defs bindings) (hx : Heap.Agree (fun _ => True) h h') :
    h'.Defines c defs bindings :=
  List.Forall₂.imp (fun _ _ ho => hx.has_eq Val.in_all ho rfl) hf

end Shapes

/-! ## One frame -/

section Frame
variable {c : Config} {s : State} {ev : Val → Val → ML Val} {args bindings body env inner v : Val}
    {bs more : List Val} {b : Val}

theorem sameAt_cdr {α : Type} {a d : Val} {k : Val → ML α} (ho : s.heap.Has v (.pair a d)) :
    SameAt (cdr v >>= k) (k d) s :=
  .inr (cdr_run ho)

theorem bindingOk_run {α : Type} {k : Bool → ML α} (hb : s.heap.Binding v) : (bindingOk v >>= k) s = k true s := by
  obtain ⟨name, expr, ⟨d, ho, d', ho', rfl⟩, hsym⟩ := hb
  unfold bindingOk
  rw [bind_assoc, mlIsPair_run ho]
  simp only [Bool.not_true, Bool.false_eq_true, if_false, bind_assoc]
  rw [cdr_run ho, mlIsPair_run ho']
  simp only [Bool.not_true, Bool.false_eq_true, if_false, bind_assoc]
  rw [cdr_run ho, cdr_run ho']
  simp only [ne_eq, not_true_eq_false, if_false, bind_assoc]
  rw [car_run ho, hsym]
  exact pure_bind_run

theorem refLet_run {starlike : Bool} (ho : s.heap.Has args (.pair bindings body))
    (hbody : s.heap.Listed body (b :: more) mvNil)
    (hbindings : s.heap.Listed bindings bs mvNil) : refLet c ev args env starlike false s = (do
      let inner ← mlGcAllocEnv c env
      refBindings c ev inner (if starlike then inner else env) (bs.length + 1) bindings
      refBegin ev body inner : ML Val) s := by
  have hargs : s.heap.Listed args (bindings :: b :: more) mvNil := ⟨_, ho, hbody⟩
  unfold refLet
  rw [properListLength_run hargs]
  simp only [List.length_cons, Option.all_some,
    show ¬ more.length + 1 + 1 < 2 by omega, decide_false, Bool.false_eq_true, if_false]
  rw [car_run ho, cdr_run ho, properListLength_run hbindings]

theorem refBindings_nil {i : Nat} {k : Unit → ML Val} :
    SameAt (refBindings c ev inner env (i + 1) mvNil >>= k) (k ()) s := by
  right
  rw [refBindings, bind_assoc, mlIsPair_nil]
  exact pure_bind_run

theorem refBindings_more {list rest binding name expr : Val} {i : Nat} (ho : s.heap.Has list (.pair binding rest))
    (hl : s.heap.Listed binding [name, expr] mvNil) (hsym : mlIsSym name = true) :
    refBindings c ev inner env (i + 1) list s = (do
      let v ← ev expr env
      mlEnvDefine c inner name v
      let rest ← cdr list
      refBindings c ev inner env i rest : ML Unit) s := by
  obtain ⟨d, hname, d', hexpr, -⟩ := id hl
  rw [refBindings, mlIsPair_run ho]
  simp only [if_true]
  rw [car_run ho, bindingOk_run ⟨name, expr, hl, hsym⟩]
  simp only [Bool.not_true, Bool.false_eq_true, if_false]
  rw [car_run hname, cdr_run hname, car_run hexpr]

theorem refSequence_more {forms d rest x y : Val} {i : Nat} (ho : s.heap.Has forms (.pair d rest))
    (hrest : s.heap.Has rest (.pair x y)) :
    refSequence ev env (i + 1) forms s = (do
      let _ ← ev d env
      let rest ← cdr forms
      refSequence ev env i rest : ML Val) s := by
  rw [refSequence, cdr_run ho, mlIsPair_run hrest]
  simp only [if_true]
  rw [car_run ho]

theorem refBegin_run (hbody : s.heap.Listed body (b :: more) mvNil) :
    refBegin ev body env s = refSequence ev env (more.length + 1) body s := by
  obtain ⟨d, ho, -⟩ := id hbody
  unfold refBegin
  rw [if_neg ho.ne_nil, properListLength_run hbody]
  rfl

end Frame

section Meanings
variable {c : Config} {s : State} {form form' list forms body env inner b : Val} {bs defs more : List Val}
variable (hc : ∀ n size, c.alloc n size = true) (hd : ∀ s, c.collectDue s = false)
    (hnames : c.names = Config.created.names)
include hc hd hnames

omit hc hd in
/-- A definition evaluates its expression, and binds the name in the frame. -/
theorem define_run {d name expr : Val} (env : Val) (ho : s.heap.Has d (.pair c.symDefine b))
    (hl : s.heap.Listed b [name, expr] mvNil)
    (hsym : mlIsSym name = true) : SameAt (meaning c d env) (do
      let v ← meaning c expr env
      mlEnvDefine c env name v
      pure mvUndef) s := by
  have hdefine := meaning_special (c := c) env (mlIsSym_names hnames (by simp [Config.names])) ho
  rw [(refPair_named hnames).2.1] at hdefine
  exact hdefine.trans (.inr (refDefine_name hsym hl))

/-- The bindings of a `let*` and its body do what definitions before the body do. The forms stay
as they are while the expressions are evaluated. -/
theorem bindings_defines (hbs : ∀ b ∈ bs, s.heap.Binding b) (hdefs : s.heap.Defines c defs bs)
    (hlist : s.heap.Listed list bs mvNil)
    (hforms : s.heap.Listed forms defs body) (hbody : s.heap.Listed body (b :: more) mvNil) :
    SameAt (do
      refBindings c (meaning c) inner inner (bs.length + 1) list
      refBegin (meaning c) body inner)
      (refSequence (meaning c) inner (defs.length + (more.length + 1)) forms) s := by
  induction bs generalizing s defs list forms with
  | nil =>
    obtain rfl : defs = [] := by cases hdefs; rfl
    obtain rfl : list = mvNil := hlist
    obtain rfl : forms = body := hforms
    apply refBindings_nil.trans
    right
    rw [refBegin_run hbody, List.length_nil, Nat.zero_add]
  | cons binding bs ih =>
    cases hdefs with
    | @cons d _ defs _ hd' hdefs =>
      obtain ⟨name, expr, hl, hsym⟩ := hbs binding (List.mem_cons_self ..)
      obtain ⟨rest, ho, hrest⟩ := id hlist
      obtain ⟨rest', ho', hrest'⟩ := id hforms
      obtain ⟨x, y, hmore⟩ : ∃ x y, s.heap.Has rest' (.pair x y) := by
        have hall := hrest'.append hbody
        cases defs with
        | nil =>
          obtain ⟨y, hy, -⟩ := hall
          exact ⟨_, y, hy⟩
        | cons x _ =>
          obtain ⟨y, hy, -⟩ := hall
          exact ⟨_, y, hy⟩
      have hfirst : SameAt (refBindings c (meaning c) inner inner (bs.length + 1 + 1) list) _ s :=
        .inr (refBindings_more ho hl hsym)
      apply (hfirst.bind fun _ _ _ _ => .refl).trans
      have hseq : SameAt (refSequence (meaning c) inner (defs.length + (more.length + 1) + 1) forms) _ s :=
        .inr (refSequence_more ho' hmore)
      have hdefine := define_run hnames inner hd' hl hsym
      have hright := hseq.trans (hdefine.bind fun _ _ _ _ => .refl)
      simp only [List.length_cons, Nat.add_right_comm _ 1 (more.length + 1)]
      apply SameAt.trans _ hright.symm
      simp only [bind_assoc, pure_bind]
      apply SameAt.refl.bind
      rintro v t hv rfl
      have hagree := meaning_agree (o := .ok v) hc hd hv
      apply SameAt.refl.bind
      rintro _ u hdef rfl
      have hkept := hagree.trans (Keeps.agree (mlEnvDefine_keeps fun _ _ => trivial) hd hdef)
      apply (sameAt_cdr (hkept.has_eq Val.in_all ho rfl)).trans
      apply SameAt.trans _ (sameAt_cdr (hkept.has_eq Val.in_all ho' rfl)).symm
      apply ih
      · exact fun b hb => (hbs b (List.mem_cons_of_mem _ hb)).agree hkept
      · exact Heap.Defines.agree hdefs hkept
      · exact hrest.agree hkept
      · exact hrest'.agree hkept
      · exact hbody.agree hkept

/-- One frame, with a definition for each binding: the same. -/
theorem letStar_meaning (hform : s.heap.LetStar c form bs body) (hbs : ∀ b ∈ bs, s.heap.Binding b)
    (hbody : s.heap.Listed body (b :: more) mvNil) (hform' : s.heap.LetDefines c form' bs body) :
    SameAt (meaning c form env) (meaning c form' env) s := by
  obtain ⟨list, ⟨args, ho, rest, hargs, rfl⟩, hlist⟩ := hform
  obtain ⟨defs, ⟨args', ho', forms, hargs', hforms⟩, hdefs⟩ := hform'
  have hstar := meaning_special (c := c) env (mlIsSym_names hnames (by simp [Config.names])) ho
  rw [(refPair_named hnames).2.2.2.2.2.1] at hstar
  have hlet := meaning_special (c := c) env (mlIsSym_names hnames (by simp [Config.names])) ho'
  rw [(refPair_named hnames).2.2.2.2.1] at hlet
  apply (hstar.trans (.inr (refLet_run hargs hbody hlist))).trans
  obtain ⟨first, others, hall, hlength⟩ : ∃ first others, s.heap.Listed forms (first :: others) mvNil ∧
      others.length + 1 = defs.length + (more.length + 1) := by
    have hall := hforms.append hbody
    cases defs with
    | nil => exact ⟨b, more, hall, (Nat.zero_add _).symm⟩
    | cons d defs => exact ⟨d, defs ++ b :: more, hall, by simp; omega⟩
  have hempty : s.heap.Listed mvNil [] mvNil := rfl
  apply SameAt.trans _ (hlet.trans (.inr (refLet_run hargs' hall hempty))).symm
  apply SameAt.refl.bind
  rintro inner t hinner rfl
  have hagree : s.heap.Agree (fun _ => True) (mlGcAllocEnv c env s).state.heap :=
    Keeps.agree (gcAlloc_keeps fun _ _ => trivial) hd hinner
  -- the `let` binds nothing: its body is the definitions and the other body
  have hbegin : SameAt (refBegin (meaning c) forms inner) _ _ := .inr (refBegin_run (hall.agree hagree))
  apply SameAt.trans _ (refBindings_nil.trans hbegin).symm
  rw [hlength]
  exact bindings_defines hc hd hnames (fun b hb => (hbs b hb).agree hagree) (hdefs.agree hagree) (hlist.agree hagree)
    (hforms.agree hagree) (hbody.agree hagree)

/-- A `let*` evaluates to what a `let` without bindings does whose body begins with a
definition for each of its bindings. -/
theorem letStar_definitions {o : Except Status Val} {t : State} (hform : s.heap.LetStar c form bs body)
    (hbs : ∀ b ∈ bs, s.heap.Binding b) (hbody : s.heap.Listed body (b :: more) mvNil)
    (hform' : s.heap.LetDefines c form' bs body) :
    Yields c s form env o t ↔ Yields c s form' env o t :=
  yields_congr hc hd (letStar_meaning hc hd hnames hform hbs hbody hform')

end Meanings

/-! ## A nest of lets -/

/-- `(let (binding) (let* (binding ...) . body))`. -/
def Heap.LetNest (c : Config) (h : Heap) (form binding : Val) (bindings : List Val) (body : Val) : Prop :=
  ∃ first next, h.Listed form [c.symLet, first, next] mvNil ∧ h.Listed first [binding] mvNil ∧
    h.LetStar c next bindings body

/-- `(let* ((f (lambda () y)) (y 2)) (f))` at 14, and the same as a nest at 20 and with
definitions at 26; 13 and 14 are the symbols `f` and `y`. -/
def State.later : State :=
  { State.created with
    heap := [(Val.sym 14, mvNil), (mvNil, .obj 2), (.sym 3, .obj 3), (.obj 4, mvNil), (.sym 13, .obj 5),
      (mlMakeFix 2, mvNil),
      (.sym 14, .obj 7), (.obj 8, mvNil), (.obj 6, .obj 9), (.sym 13, mvNil), (.obj 11, mvNil), (.obj 10, .obj 12),
        (.sym 6, .obj 13),
      (.obj 9, .obj 12), (.sym 6, .obj 15), (.obj 16, mvNil), (.obj 6, mvNil), (.obj 18, .obj 17), (.sym 5, .obj 19),
      (.sym 2, .obj 6), (.sym 2, .obj 8), (.obj 22, .obj 12), (.obj 21, .obj 23), (mvNil, .obj 24),
        (.sym 5, .obj 25)].foldl
        (fun h cell => h.alloc (.pair cell.1 cell.2)) State.created.heap
    symtab := ⟨State.created.symtab.entries ++ [ascii "f", ascii "y"], 32⟩ }

theorem State.later_has {a : Nat} {x y : Val} (ho : State.later.heap.get a = some (.pair x y)) :
    State.later.heap.Has (.obj a) (.pair x y) := ⟨a, rfl, ho⟩

theorem State.later_shapes : State.later.heap.LetStar .created (.obj 14) [.obj 6, .obj 8] (.obj 12) ∧
    State.later.heap.Binding (.obj 6) ∧ State.later.heap.Binding (.obj 8) ∧
    State.later.heap.Listed (.obj 12) [.obj 11] mvNil ∧
    State.later.heap.LetNest .created (.obj 20) (.obj 6) [.obj 8] (.obj 12) ∧
    State.later.heap.LetDefines .created (.obj 26) [.obj 6, .obj 8] (.obj 12) := by
  refine ⟨⟨.obj 10, ?_, ?_⟩, ⟨.sym 13, .obj 4, ?_, rfl⟩, ⟨.sym 14, mlMakeFix 2, ?_, rfl⟩, ?_,
    ⟨.obj 18, .obj 16, ?_, ?_, .obj 9, ?_, ?_⟩,
    ⟨[.obj 21, .obj 22], ?_, ?_⟩⟩
  · exact ⟨.obj 13, later_has rfl, .obj 12, later_has rfl, rfl⟩
  · exact ⟨.obj 9, later_has rfl, mvNil, later_has rfl, rfl⟩
  · exact ⟨.obj 5, later_has rfl, mvNil, later_has rfl, rfl⟩
  · exact ⟨.obj 7, later_has rfl, mvNil, later_has rfl, rfl⟩
  · exact ⟨mvNil, later_has rfl, rfl⟩
  · exact ⟨.obj 19, later_has rfl, .obj 17, later_has rfl, mvNil, later_has rfl, rfl⟩
  · exact ⟨mvNil, later_has rfl, rfl⟩
  · exact ⟨.obj 15, later_has rfl, .obj 12, later_has rfl, rfl⟩
  · exact ⟨mvNil, later_has rfl, rfl⟩
  · exact ⟨.obj 25, later_has rfl, .obj 24, later_has rfl, .obj 23, later_has rfl, .obj 12, later_has rfl, rfl⟩
  · exact .cons (later_has rfl) (.cons (later_has rfl) .nil)

theorem State.later_two : Yields Config.created.withoutCollections later (.obj 14) (.obj 1) (.ok (mlMakeFix 2))
    (mlEval Config.created.withoutCollections 8 (.obj 14) (.obj 1) later).state := by
  have htwo : (mlEval Config.created.withoutCollections 8 (.obj 14) (.obj 1) later).res = .ok (mlMakeFix 2) := by
    decide +kernel
  exact yields_of_mlEval (o := .ok _) (c := Config.created.withoutCollections) (fun _ _ => rfl)
    (fun _ => rfl) htwo (by simp)

theorem letStar_definitions_later :
    Yields Config.created.withoutCollections .later (.obj 26) (.obj 1) (.ok (mlMakeFix 2))
      (mlEval Config.created.withoutCollections 8 (.obj 14) (.obj 1) .later).state := by
  obtain ⟨hstar, hfirst, hsecond, hbody, -, hdefs⟩ := State.later_shapes
  have hbs : ∀ b ∈ [Val.obj 6, .obj 8], State.later.heap.Binding b := by
    intro b hb
    rcases List.mem_pair.1 hb with rfl | rfl
    · exact hfirst
    · exact hsecond
  exact (letStar_definitions (c := Config.created.withoutCollections) (fun _ _ => rfl)
    (fun _ => rfl) rfl hstar hbs hbody hdefs).1
    State.later_two

/-- The procedure `f` sees the `y` that a `let*` binds after it, and does not see the one of
an inner `let*`. -/
theorem letStar_nest :
    ¬ ∀ (c : Config) (s : State) (form form' env binding : Val) (bs : List Val) (body b : Val) (more : List Val),
    (∀ n size, c.alloc n size = true) → (∀ s, c.collectDue s = false) → c.names = Config.created.names →
    s.heap.LetStar c form (binding :: bs) body → (∀ b ∈ binding :: bs, s.heap.Binding b) →
      s.heap.Listed body (b :: more) mvNil →
    s.heap.LetNest c form' binding bs body → ∀ o t, Yields c s form env o t ↔ Yields c s form' env o t := by
  intro hall
  obtain ⟨hstar, hfirst, hsecond, hbody, hnest, -⟩ := State.later_shapes
  have hiff := hall Config.created.withoutCollections .later (.obj 14) (.obj 20) (.obj 1) _ _ _ _ _
    (fun _ _ => rfl) (fun _ => rfl) rfl
    hstar (List.forall_mem_cons.2 ⟨hfirst, List.forall_mem_cons.2 ⟨hsecond, List.forall_mem_nil _⟩⟩) hbody hnest
  have hunbound : (mlEval Config.created.withoutCollections 8 (.obj 20) (.obj 1) .later).res = .error
      (.err .errUnbound) := by
    decide +kernel
  have hnest' := yields_of_mlEval (o := .error _) (c := Config.created.withoutCollections) (fun _ _ => rfl)
    (fun _ => rfl) hunbound (by simp)
  cases (((hiff _ _).1 State.later_two).unique hnest').1

end Microlisp
