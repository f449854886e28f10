import Microlisp.Balance.Reader
import Microlisp.Api
/-!
# The evaluator leaves the bookkeeping alone

Every handler does, if the nested evaluations do; so does a turn of the loop, which
leaves the two slots for form and environment; so does `microlisp_eval`.
-/
namespace Microlisp

open Prog

theorem properListLength_reads {v : Val} : Reads (properListLength v) :=
  .bind .gets fun _ => .bind (walkList_reads _) fun _ => .pure

theorem bindingOk_reads {v : Val} : Reads (bindingOk v) := by
  refine .bind isObjType_reads fun _ => .ite .pure ?_
  refine .bind cdr_reads fun _ => .bind isObjType_reads fun _ => .ite .pure ?_
  refine .bind cdr_reads fun _ => .bind cdr_reads fun _ => .ite .pure ?_
  exact .bind car_reads fun _ => .pure

section Handlers
variable {c : Config} {S : Status → Prop} {s0 : State} {xs : List Val} {ev : Val → Val → ML Val} {args env : Val}
-- nested calls are made at the depth of `s0`
variable (hS : ∀ e, e ≠ .errEvalDepth → S e)
  (hev : ∀ s1 : State, s1.evalDepth = s0.evalDepth → ∀ xs f e, Keeps c S s1 xs (ev f e))
include hS

/-! ## Argument lists and closures -/

theorem closureArity_keeps {params : Val} : Keeps c S s0 xs (closureArity params) := by
  have hloop : ∀ n cur k, Keeps c S s0 xs (closureArityLoop n cur k) := by
    intro n
    induction n with
    | zero => exact fun _ _ => .timeout
    | succ n ih =>
      intro cur k
      refine .bind (.reads isObjType_reads) fun _ => .ite (.bind (.reads car_reads) fun param => ?_) ?_
      · exact .ite (.raise (hS _ (by decide))) (.bind (.reads cdr_reads) fun _ => ih _ _)
      · exact .ite .pure (.ite .pure (.raise (hS _ (by decide))))
  exact .bind (.reads .gets) fun _ => hloop _ _ _

theorem makeClosure_keeps {params body : Val} : Keeps c S s0 xs (makeClosure c params body env) := by
  refine .bind (closureArity_keeps hS) fun _ => savepoint_bind ?_
  have hprotect : Triple (s0.watch c) (s0.At c xs)
      (do mlGcProtect c params
          mlGcProtect c body
          mlGcProtect c env) (fun _ => s0.At c (xs ++ [params, body, env]))
      (fun e t => ∃ ys, Fails c S s0 (xs ++ ys) e t) := by
    have hp : ∀ ys v, Triple (s0.watch c) (s0.At c (xs ++ ys)) (mlGcProtect c v) (fun _ => s0.At c (xs ++ (ys ++ [v])))
        (fun e t => ∃ ys, Fails c S s0 (xs ++ ys) e t) := fun ys v =>
      (mlGcProtect_at hS).conseq (fun _ h => h) (fun _ _ h => by rwa [List.append_assoc] at h) (fun _ _ h => ⟨ys, h⟩)
    have h0 := hp [] params
    rw [List.append_nil] at h0
    exact .bind h0 fun _ => .bind (hp _ body) fun _ => hp _ env
  exact .bind (onErr_restore_from hprotect) fun _ => andThen_restore (gcAlloc_keeps hS)

theorem bindParams_at {argv : List Val} {e cur : Val} (n i : Nat) :
    Triple (s0.watch c) (s0.At c (xs ++ [e])) (bindParams c env argv (s0.gcProtect.length + xs.length) n i cur)
      (fun _ => s0.At c (xs ++ [e])) (Fails c S s0 xs) := by
  induction n generalizing i cur with
  | zero => exact .pure fun _ h => h
  | succ n ih =>
    refine .seq car_reads.triple fun _ => .seq argvGet_reads.triple fun _ => ?_
    exact .seq (onErr_restore (mlEnvDefine_keeps hS)) fun _ => .seq cdr_reads.triple fun _ => ih _

theorem buildList_keeps {argv : List Val} {start stop : Nat} : Keeps c S s0 xs (buildList c argv start stop) := by
  refine slot_keeps hS fun x => slotLoop_keeps
    (f := fun i head => do
      let elem ← argvGet argv (start + i)
      (mlGcProtect c elem).onErr (mlGcRestore (s0.gcProtect.length + xs.length))
      ((mlGcAllocPair c elem head).andThen (mlGcUnprotect 1)).onErr (mlGcRestore (s0.gcProtect.length + xs.length)))
    (fun _ => rfl) (fun i head => ?_) (fun i head x => ?_) _ mvNil x
  · simp only [bind_assoc]
    rfl
  · refine .seq argvGet_reads.triple fun elem => .bind (onErr_restore (mlGcProtect_at hS)) fun _ => ?_
    exact onErr_restore (andThen_unprotect (r := [elem]) (gcAlloc_keeps hS))

theorem applyClosureBind_keeps {closure : Val} {argv : List Val} :
    Keeps c S s0 xs (applyClosureBind c closure argv) := by
  refine .bind (.reads closureFields_reads) fun cl => ?_
  refine .ite (.raise (hS _ (by decide))) (.ite (.raise (hS _ (by decide))) (.bind (gcAlloc_keeps hS) fun e => ?_))
  refine savepoint_bind (.bind (mlGcProtect_at hS) fun _ => .seq closureFields_reads.triple fun cl => ?_)
  refine .seq (bindParams_at hS _ _) fun cur => ?_
  have hend : Triple (s0.watch c) (s0.At c (xs ++ [e])) (do
      modify (mlGcRestore (s0.gcProtect.length + xs.length))
      pure e) (fun _ => s0.At c xs) (Fails c S s0 xs) := .bind restore_at fun _ => .pure fun _ h => h
  refine .ite (fun _ => .ite (fun _ => ?_) (fun _ => ?_)) (fun _ => hend)
  · exact .seq (onErr_restore (Keeps.raise (hS _ (by decide)))) fun _ => hend
  · refine .seq (onErr_restore (buildList_keeps hS)) fun _ => ?_
    exact .seq (onErr_restore (mlEnvDefine_keeps hS)) fun _ => hend

include hev

/-- The values stay on the protect stack. -/
theorem evalArgList_at : Triple (s0.watch c) (s0.At c xs) (evalArgList c ev args env) (fun argv => s0.At c (xs ++ argv))
    (Fails c S s0 xs) := by
  have hloop : ∀ n cur argv, Triple (s0.watch c) (s0.At c (xs ++ argv)) (evalArgLoop c ev env n cur argv)
      (fun argv => s0.At c (xs ++ argv)) (Fails c S s0 xs) := by
    intro n
    induction n with
    | zero => exact fun cur argv => .pure fun _ h => h
    | succ n ih =>
      intro cur argv
      refine .seq car_reads.triple fun _ => .seq (onErr_unprotect (hev _ rfl _ _ _)) fun v => ?_
      refine .bind (onErr_unprotect (mlGcProtect_at hS)) fun _ => .seq cdr_reads.triple fun cur => ?_
      exact (ih cur (argv ++ [v])).conseq (fun _ h => by rwa [List.append_assoc] at h) (fun _ _ h => h) (fun _ _ h => h)
  refine .seq properListLength_reads.triple fun n => ?_
  have hnil : ∀ t, s0.At c xs t → s0.At c (xs ++ []) t := fun t h => by rwa [List.append_nil]
  cases n with
  | none => exact raise_fails (hS _ (by decide))
  | some argc =>
    refine .ite (fun _ => .pure hnil) (fun _ => .seq (rawAllocOrFail_keeps hS) fun _ => ?_)
    exact (hloop _ _ []).conseq hnil (fun _ _ h => h) (fun _ _ h => h)

/-! ## Special forms -/

omit hev in
theorem handleQuote_keeps : Keeps c S s0 xs (handleQuote args) :=
  .bind (.reads properListLength_reads) fun _ => .ite (.raise (hS _ (by decide)))
    (.bind (.reads car_reads) fun _ => .pure)

theorem handleIf_keeps : Keeps c S s0 xs (handleIf ev args env) := by
  refine .bind (.reads properListLength_reads) fun n => .ite (.raise (hS _ (by decide))) ?_
  refine .bind (.reads car_reads) fun testForm => .bind (.reads cdr_reads) fun _ => ?_
  refine .bind (.reads car_reads) fun thenForm => ?_
  have htest : ∀ elseForm, Keeps c S s0 xs (do
      let testV ← ev testForm env
      if mlTruthy testV then pure (SfResult.tco thenForm env)
      else if n = some 3 then pure (.tco elseForm env) else pure (.value mvUndef)) :=
    fun _ => .bind (hev _ rfl _ _ _) fun _ => .ite .pure (.ite .pure .pure)
  refine .ite (.bind (.reads cdr_reads) fun _ => .bind (.reads car_reads) fun _ => htest _)
    (.bind .pure fun _ => htest _)

omit hev in
theorem defineProtected_keeps {name value : Val} : Keeps c S s0 xs (defineProtected c env name value) := by
  refine savepoint_bind (.bind (mlGcProtect_at hS) fun _ => ?_)
  exact .bind (andThen_restore (mlEnvDefine_keeps hS)) fun _ => .pure fun _ h => h

theorem handleDefine_keeps : Keeps c S s0 xs (handleDefine c ev args env) := by
  refine .bind (.reads properListLength_reads) fun _ => .ite (.raise (hS _ (by decide))) ?_
  refine .bind (.reads car_reads) fun _ => .bind (.reads cdr_reads) fun _ =>
    .ite (.ite (.raise (hS _ (by decide))) ?_) ?_
  · exact .bind (.reads car_reads) fun _ => .bind (hev _ rfl _ _ _) fun _ => defineProtected_keeps hS
  · refine .bind (.reads isObjType_reads) fun _ => .ite (.bind (.reads car_reads) fun _ => ?_)
      (.raise (hS _ (by decide)))
    refine .ite (.raise (hS _ (by decide))) (.bind (.reads cdr_reads) fun _ => ?_)
    exact .bind (makeClosure_keeps hS) fun _ => defineProtected_keeps hS

omit hS hev in
/-- The bare status becomes an error by name; nothing else changes. -/
theorem onUnbound_at {α : Type} {m : ML α} {message : Bytes} {name : Val} {P : State → Prop} {Q : α → State → Prop}
    (h : Triple (s0.watch c) P m Q (Fails c S s0 xs)) :
    Triple (s0.watch c) P (onUnbound message name m) Q (Fails c S s0 xs) := by
  refine .onError (h.conseq (fun _ h => h) (fun _ _ h => h) ?_)
  rintro e t ⟨he, ht⟩
  split
  · exact ⟨he, ht.of_eq rfl⟩
  · exact ⟨he, ht⟩

theorem handleSetBang_keeps : Keeps c S s0 xs (handleSetBang c ev args env) := by
  refine .bind (.reads properListLength_reads) fun _ => .ite (.raise (hS _ (by decide))) ?_
  refine .bind (.reads car_reads) fun _ => .ite (.raise (hS _ (by decide))) (.bind (.reads cdr_reads) fun _ => ?_)
  refine .bind (.reads car_reads) fun _ => .bind (hev _ rfl _ _ _) fun _ => savepoint_bind ?_
  refine .bind (mlGcProtect_at hS) fun _ => .bind (onUnbound_at (andThen_restore ?_)) fun _ => .pure fun _ h => h
  exact mlEnvSet_keeps hS

omit hev in
theorem handleLambda_keeps : Keeps c S s0 xs (handleLambda c args env) := by
  refine .bind (.reads properListLength_reads) fun _ => .ite (.raise (hS _ (by decide))) ?_
  refine .bind (.reads car_reads) fun _ => .bind (.reads cdr_reads) fun _ => .bind (.reads isObjType_reads) fun _ => ?_
  exact .ite (.raise (hS _ (by decide))) (.bind (makeClosure_keeps hS) fun _ => .pure)

theorem beginTco_keeps {forms : Val} : Keeps c S s0 xs (beginTco ev forms env) := by
  have hloop : ∀ n forms, Keeps c S s0 xs (beginLoop ev env n forms) := by
    intro n
    induction n with
    | zero => exact fun _ => .timeout
    | succ n ih =>
      intro forms
      refine .bind (.reads cdr_reads) fun _ => .bind (.reads isObjType_reads) fun _ => .ite ?_ .pure
      refine .bind (.reads car_reads) fun _ => .bind (hev _ rfl _ _ _) fun _ => ?_
      exact .bind (.reads cdr_reads) fun _ => ih _
  refine .ite .pure (.bind (.reads properListLength_reads) fun n => ?_)
  cases n with
  | none => exact .raise (hS _ (by decide))
  | some n => exact .bind (hloop _ _) fun _ => .bind (.reads car_reads) fun _ => .pure

omit hev in
theorem letrecPredefine_at {inner x cur : Val} {formName : String} (n : Nat) :
    Triple (s0.watch c) (s0.At c (xs ++ [x]))
      (letrecPredefine c inner (s0.gcProtect.length + xs.length) formName n cur) (fun _ => s0.At c (xs ++ [x]))
      (Fails c S s0 xs) := by
  induction n generalizing cur with
  | zero => exact .timeout fun _ _ => id
  | succ n ih =>
    refine .seq isObjType_reads.triple fun _ => .ite (fun _ => ?_) (fun _ => .pure fun _ h => h)
    refine .seq car_reads.triple fun _ => .seq bindingOk_reads.triple fun _ => .ite (fun _ => ?_) (fun _ => ?_)
    · exact onErr_restore (Keeps.raise (hS _ (by decide)))
    · refine .seq car_reads.triple fun _ => .seq (onErr_restore (mlEnvDefine_keeps hS)) fun _ => ?_
      exact .seq cdr_reads.triple fun _ => ih

theorem letBindLoop_at {inner initEnv x cur : Val} {formName : String} (n : Nat) :
    Triple (s0.watch c) (s0.At c (xs ++ [x]))
      (letBindLoop c ev inner initEnv (s0.gcProtect.length + xs.length) formName n cur) (fun _ => s0.At c (xs ++ [x]))
      (Fails c S s0 xs) := by
  induction n generalizing cur with
  | zero => exact .timeout fun _ _ => id
  | succ n ih =>
    refine .seq isObjType_reads.triple fun _ => .ite (fun _ => ?_) (fun _ => .pure fun _ h => h)
    refine .seq car_reads.triple fun _ => .seq bindingOk_reads.triple fun _ => .ite (fun _ => ?_) (fun _ => ?_)
    · exact onErr_restore (Keeps.raise (hS _ (by decide)))
    · refine .seq car_reads.triple fun _ => .seq cdr_reads.triple fun _ => .seq car_reads.triple fun _ => ?_
      refine .seq (onErr_restore (hev _ rfl _ _ _)) fun v => savepoint_bind ?_
      refine .bind (onErr_restore (mlGcProtect_at hS)) fun _ => ?_
      refine .bind (onErr_restore (andThen_restore (mlEnvDefine_keeps hS))) fun _ => ?_
      exact .seq cdr_reads.triple fun _ => ih

theorem handleLetFamily_keeps {starlike recursive : Bool} {formName : String} :
    Keeps c S s0 xs (handleLetFamily c ev args env starlike recursive formName) := by
  refine .bind (.reads properListLength_reads) fun _ => .ite (.raise (hS _ (by decide))) ?_
  refine .bind (.reads car_reads) fun bindings => .bind (.reads cdr_reads) fun body => ?_
  refine .bind (.reads properListLength_reads) fun n => ?_
  cases n with
  | none => exact .raise (hS _ (by decide))
  | some blen =>
    refine .bind (gcAlloc_keeps hS) fun inner => savepoint_bind (.bind (mlGcProtect_at hS) fun _ => ?_)
    have hbody : ∀ initEnv, Triple (s0.watch c) (s0.At c (xs ++ [inner])) (do
        letBindLoop c ev inner initEnv (s0.gcProtect.length + xs.length) formName (blen + 1) bindings
        (beginTco ev body inner).andThen (mlGcRestore (s0.gcProtect.length + xs.length))) (fun _ => s0.At c xs)
        (Fails c S s0 xs) :=
      fun _ => .seq (letBindLoop_at hS hev _) fun _ => andThen_restore (beginTco_keeps hS hev)
    exact .ite (fun _ => .seq (letrecPredefine_at hS _) fun _ => hbody _) (fun _ => hbody _)

theorem handleAndOr_keeps {isOr : Bool} : Keeps c S s0 xs (handleAndOr ev args env isOr) := by
  have hloop : ∀ n args, Keeps c S s0 xs (andOrLoop ev env isOr n args) := by
    intro n
    induction n with
    | zero => exact fun _ => .timeout
    | succ n ih =>
      intro args
      refine .bind (.reads cdr_reads) fun _ => .bind (.reads isObjType_reads) fun _ => .ite ?_ ?_
      · refine .bind (.reads car_reads) fun _ => .bind (hev _ rfl _ _ _) fun _ => .ite .pure ?_
        exact .bind (.reads cdr_reads) fun _ => ih _
      · exact .bind (.reads car_reads) fun _ => .pure
  refine .ite .pure (.bind (.reads properListLength_reads) fun n => ?_)
  cases n with
  | none => exact .raise (hS _ (by decide))
  | some n => exact hloop _ _

theorem handleCond_keeps : Keeps c S s0 xs (handleCond c ev args env) := by
  have hloop : ∀ n cur, Keeps c S s0 xs (condLoop c ev env n cur) := by
    intro n
    induction n with
    | zero => exact fun _ => .timeout
    | succ n ih =>
      intro cur
      refine .bind (.reads isObjType_reads) fun _ => .ite (.bind (.reads car_reads) fun _ => ?_) .pure
      refine .bind (.reads isObjType_reads) fun _ => .ite (.raise (hS _ (by decide))) ?_
      refine .bind (.reads car_reads) fun _ => .bind (.reads cdr_reads) fun _ => .ite (beginTco_keeps hS hev) ?_
      refine .bind (hev _ rfl _ _ _) fun _ => .ite (.ite .pure (beginTco_keeps hS hev)) ?_
      exact .bind (.reads cdr_reads) fun _ => ih _
  refine .bind (.reads properListLength_reads) fun n => ?_
  cases n with
  | none => exact .raise (hS _ (by decide))
  | some n => exact hloop _ _

theorem dispatch_keeps {head rest : Val} : Keeps c S s0 xs (dispatch c ev head rest env) := by
  refine .ite (handleQuote_keeps hS) (.ite (handleIf_keeps hS hev) (.ite (handleDefine_keeps hS hev) ?_))
  refine .ite (handleSetBang_keeps hS hev) (.ite (handleLambda_keeps hS) (.ite (beginTco_keeps hS hev) ?_))
  refine .ite (handleLetFamily_keeps hS hev)
    (.ite (handleLetFamily_keeps hS hev) (.ite (handleLetFamily_keeps hS hev) ?_))
  exact .ite (handleAndOr_keeps hS hev) (.ite (handleAndOr_keeps hS hev) (.ite (handleCond_keeps hS hev) .pure))

/-! ## One turn of the loop -/

omit hS hev in
/-- What a turn ends in: the stack of the caller, or that stack and two slots. -/
def IterEnds (c : Config) (s0 : State) : Iter → State → Prop
  | .done _, t => s0.At c [] t
  | .again, t => ∃ form env, s0.At c [form, env] t

/-- The loop head of an activation entered at `s0`. -/
def State.AtHead (c : Config) (s0 t : State) : Prop := ∃ form env, s0.At c [form, env] t

omit hS hev in
theorem finish_ends {v : Val} {ys : List Val} :
    Triple (s0.watch c) (s0.At c ys) (finish s0.gcProtect.length v) (IterEnds c s0) (Fails c S s0 []) :=
  .bind (Q := fun _ => s0.At c []) (.modify fun _ h => State.At.restore (l := []) h) fun _ => .pure fun _ h => h

omit hS hev in
/-- The slots of an activation hold the next form and environment. -/
theorem State.At.setSlots {t : State} {f e form env : Val} (h : s0.At c [f, e] t) :
    s0.At c [form, env] (gcProtectSet (s0.gcProtect.length + 1) env (gcProtectSet s0.gcProtect.length form t)) := by
  have hp : (t.gcProtect.set s0.gcProtect.length form).set (s0.gcProtect.length + 1) env
      = s0.gcProtect ++ [form, env] := by
    rw [h.protect, List.set_append_right _ _ (Nat.le_refl _), List.set_append_right _ _ (Nat.le_succ _)]
    simp
  exact { h with protect := hp }

omit hS hev in
theorem loopWith_ends {f e form env : Val} :
    Triple (s0.watch c) (s0.At c [f, e]) (loopWith s0.gcProtect.length form env) (IterEnds c s0) (Fails c S s0 []) :=
  fun _ h => wp_bind (wp_modify (wp_bind (wp_modify (wp_pure ⟨form, env, h.setSlots⟩))))

omit hS hev in
/-- Back to the entry of the activation on an error. -/
theorem onErr_entry {α : Type} {m : ML α} {P : State → Prop} {Q : α → State → Prop} {r : List Val}
    (h : Triple (s0.watch c) P m Q (Fails c S s0 r)) :
    Triple (s0.watch c) P (m.onErr (mlGcRestore s0.gcProtect.length)) Q (Fails c S s0 []) :=
  onErr_restore (l := []) h

omit hev in
theorem bindClosure_at {f e proc : Val} {argv : List Val} :
    Triple (s0.watch c) (s0.At c ([f, e, proc] ++ argv))
      (((applyClosureBind c proc argv).andThen (mlGcUnprotect argv.length)).onErr (mlGcRestore s0.gcProtect.length))
      (fun _ => s0.At c [f, e, proc]) (Fails c S s0 []) :=
  onErr_entry (andThen_unprotect (applyClosureBind_keeps hS))

/-- The leading forms of a closure's body, run while the frame is pending. -/
theorem closureBody_at {f e p body newEnv : Val} :
    Triple (s0.watch c) (fun t => s0.At c [f, e, p] (popPending t) ∧ t.pending = newEnv :: s0.pending)
      (((beginTco ev body newEnv).andThen (fun s => mlGcRestore (s0.gcProtect.length + 2) (popPending s))).onErr
        (mlGcRestore s0.gcProtect.length)) (fun _ => s0.At c [f, e]) (Fails c S s0 []) := by
  let s1 : State := { s0 with pending := newEnv :: s0.pending }
  have hpop : ∀ t, s1.Inside c [f, e, p] t →
      s0.Inside c [f, e] (mlGcRestore (s0.gcProtect.length + 2) (popPending t)) :=
    fun t h => State.Inside.restore (l := [f, e]) (r := [p])
      { h with pending := by simp [popPending, h.pending, s1] }
  have hev1 : ∀ s2 : State, s2.evalDepth = s1.evalDepth → ∀ xs f e, Keeps c S s2 xs (ev f e) := hev
  have hbody : Keeps c S s1 [f, e, p] (beginTco ev body newEnv) := beginTco_keeps hS hev1
  refine onErr_entry (.andThen (hbody.conseq ?_ ?_ fun _ t h => ⟨h.1, hpop t h.2⟩))
  · rintro t ⟨h, hpending⟩
    exact { h with pending := hpending }
  · exact fun _ t h => { hpop t h.toInside with lastError := h.lastError }

theorem applyClosure_ends {f e proc : Val} {argv : List Val} :
    Triple (s0.watch c) (s0.At c ([f, e, proc] ++ argv))
      (applyClosure c ev s0.gcProtect.length (s0.gcProtect.length + 2) proc argv) (IterEnds c s0)
      (Fails c S s0 []) := by
  refine .bind (bindClosure_at hS) fun newEnv => .seq closureFields_reads.triple fun cl => ?_
  refine .bind (.modify fun t h => ?_) fun _ => .bind (closureBody_at (f := f) (e := e) (p := proc) hS hev)
    fun result => ?_
  · exact ⟨{ h with }, congrArg (newEnv :: ·) h.pending⟩
  · cases result with
    | tco form env => exact loopWith_ends
    | value v => exact finish_ends
    | notHandled => exact loopWith_ends

omit hev in
theorem applyPrim_ends {f e proc : Val} {argv : List Val} :
    Triple (s0.watch c) (s0.At c ([f, e, proc] ++ argv))
      (applyPrim c s0.gcProtect.length (s0.gcProtect.length + 2) proc argv) (IterEnds c s0) (Fails c S s0 []) := by
  refine .seq primFields_reads.triple fun p => .ite (fun _ => ?_) (fun _ => ?_)
  · refine .onErr ((raise_fails (hS _ (by decide))).conseq (fun _ h => h) (fun _ _ h => h) fun _ t h => ⟨h.1, ?_⟩)
    exact State.Inside.restore (l := []) (State.Inside.unprotect (l := [f, e, proc]) h.2)
  · refine .bind (Q := fun _ => s0.At c [f, e]) (onErr_entry (r := [f, e]) (.andThen ?_)) fun v => finish_ends
    refine (callPrim_keeps hS).conseq (fun _ h => h) (fun _ t h => ?_) (fun _ t h => ⟨h.1, ?_⟩)
    · exact State.At.restore (l := [f, e]) (r := [proc]) (State.At.unprotect (l := [f, e, proc]) h)
    · exact State.Inside.restore (l := [f, e]) (r := [proc]) (State.Inside.unprotect (l := [f, e, proc]) h.2)

theorem evalCall_ends {f e head rest : Val} :
    Triple (s0.watch c) (s0.At c [f, e]) (evalCall c ev s0.gcProtect.length head rest env) (IterEnds c s0)
      (Fails c S s0 []) := by
  refine .bind (onErr_entry (hev _ rfl _ _ _)) fun proc => savepoint_bind ?_
  refine .bind (onErr_entry (mlGcProtect_at hS)) fun _ => ?_
  refine .bind (onErr_entry (evalArgList_at hS hev)) fun argv => .seq (.emit fun _ h _ => ⟨nofun, h⟩) fun _ => ?_
  refine .seq isObjType_reads.triple fun _ => .ite (fun _ => applyPrim_ends hS) (fun _ => ?_)
  refine .seq isObjType_reads.triple fun _ => .ite (fun _ => applyClosure_ends hS hev) (fun _ => ?_)
  refine .bind (Q := fun _ => s0.At c [f, e, proc]) (.modify fun _ h => State.At.unprotect (l := [f, e, proc]) h)
    fun _ => ?_
  exact onErr_entry (raise_fails (hS _ (by decide)))

theorem evalPair_ends {f e form : Val} :
    Triple (s0.watch c) (s0.At c [f, e]) (evalPair c ev s0.gcProtect.length form env) (IterEnds c s0)
      (Fails c S s0 []) := by
  refine .seq car_reads.triple fun head => .seq cdr_reads.triple fun rest => ?_
  have hcall : Triple (s0.watch c) (s0.At c [f, e]) (evalCall c ev s0.gcProtect.length head rest env) (IterEnds c s0)
      (Fails c S s0 []) := evalCall_ends hS hev
  apply Triple.ite
  · intro _
    apply Triple.seq (onErr_entry (dispatch_keeps hS hev))
    intro result
    cases result with
    | value v => exact finish_ends
    | tco form env => exact loopWith_ends
    | notHandled => exact hcall
  · exact fun _ => hcall

/-- A turn of the loop leaves the caller's stack, or that and the two slots; the depth
counters are as they were. -/
theorem evalIter_ends : Triple (s0.watch c) (s0.AtHead c) (evalIter c ev s0.gcProtect.length) (IterEnds c s0)
    (Fails c S s0 []) := by
  rintro t ⟨f, e, h⟩
  suffices hiter : Triple (s0.watch c) (s0.At c [f, e]) (evalIter c ev s0.gcProtect.length) (IterEnds c s0)
    (Fails c S s0 []) from hiter t h
  refine .seq gcProtectGet_reads.triple fun form => .seq gcProtectGet_reads.triple fun env => ?_
  cases form with
  | fix p => exact finish_ends
  | imm i => exact finish_ends
  | sym i => exact .seq (onErr_entry (onUnbound_at (mlEnvLookup_keeps hS))) fun v => finish_ends
  | obj a => exact .seq isObjType_reads.triple fun _ => .ite (fun _ => evalPair_ends hS hev) (fun _ => finish_ends)
  | reserved w => exact .seq (.emit fun _ h _ => ⟨nofun, h⟩) fun _ => onErr_entry (raise_fails (hS _ (by decide)))

theorem evalLoop_ends (turns : Nat) :
    Triple (s0.watch c) (s0.AtHead c) (evalLoop c ev s0.gcProtect.length turns) (fun _ => s0.At c [])
      (Fails c S s0 []) := by
  induction turns with
  | zero => exact .timeout fun _ _ => id
  | succ turns ih =>
    refine .bind (evalIter_ends hS hev) fun i => ?_
    cases i with
    | done v => exact .pure fun _ h => h
    | again => exact ih

omit hev in
/-- The two slots of an activation. -/
theorem enter_head {form : Val} :
    Triple (s0.watch c) (s0.At c []) (do
      mlGcProtect c form
      (mlGcProtect c env).onErr (mlGcRestore s0.gcProtect.length)) (fun _ => s0.At c [form, env])
      (Fails c S s0 []) :=
  .bind (mlGcProtect_at hS) fun _ => onErr_entry (mlGcProtect_at hS)

theorem evalBody_keeps {form : Val} (turns : Nat) :
    Triple (s0.watch c) (s0.At c []) (evalBody c ev turns form env) (fun _ => s0.At c []) (Fails c S s0 []) := by
  refine savepoint_bind (.bind (mlGcProtect_at hS) fun _ => ?_)
  refine .bind (onErr_entry (mlGcProtect_at hS)) fun _ => ?_
  exact (evalLoop_ends hS hev turns).conseq (fun _ h => ⟨_, _, h⟩) (fun _ _ h => h) (fun _ _ h => h)

end Handlers

/-! ## The evaluator and the entry point -/

/-- Any status. -/
def anyStatus (_ : Status) : Prop := True

section Calls
variable {c : Config} {S : Status → Prop}

/-- `ml_eval` leaves everything as it found it. -/
theorem mlEval_keeps (hS : ∀ e, S e) (n : Nat) (s0 : State) (xs : List Val) (form env : Val) :
    Keeps c S s0 xs (mlEval c n form env) := by
  induction n generalizing s0 xs form env with
  | zero => exact .timeout
  | succ n ih =>
    refine .of_self fun t => ?_
    -- inside, the depth is one more than at entry
    let t1 : State := { t with evalDepth := t.evalDepth + 1 }
    have hleave : ∀ u, t1.Inside c [] u → t.Inside c [] (leaveEval u) := fun u h =>
      { h with evalDepth := by simp [leaveEval, h.evalDepth, t1] }
    suffices h : Triple (t.watch c) (t.At c []) (mlEval c (n + 1) form env) (fun _ => t.At c []) (Fails c S t []) from
      h t .refl
    refine .seq Reads.gets.triple fun depth => .ite (fun _ => raise_fails (hS _)) (fun _ => ?_)
    refine .bind (Q := fun _ => t1.At c []) (.modify fun u h => ?_) fun _ => .andThen ?_
    · exact { h with evalDepth := congrArg (· + 1) h.evalDepth }
    · have hbody : Keeps c S t1 [] (evalBody c (mlEval c n) (n + 1) form env) :=
        evalBody_keeps (fun e _ => hS e) (fun s1 _ => ih s1) (n + 1)
      refine Triple.conseq hbody (fun _ h => h) ?_ ?_
      · exact fun _ u h => { hleave u h.toInside with lastError := h.lastError }
      · exact fun _ u h => ⟨h.1, hleave u h.2⟩

theorem readEvalLoop_keeps (hS : ∀ e, S e) (n : Nat) {s0 : State} {xs : List Val} (turns : Nat) (r : Reader) (v : Val)
    (sawForm : Bool) : Keeps c S s0 xs (readEvalLoop c n turns r v sawForm) := by
  have hS' : ∀ e, e ≠ .errEvalDepth → S e := fun e _ => hS e
  induction turns generalizing r v sawForm with
  | zero => exact .timeout
  | succ turns ih =>
    refine .bind (mlRead_keeps hS') fun x => .ite .pure (savepoint_bind (.bind (mlGcProtect_at hS') fun _ => ?_))
    exact .bind (andThen_restore (mlEval_keeps hS n _ _ _ _)) fun _ => ih _ _ _

theorem printResult_keeps (hS : ∀ e, S e) {s0 : State} {xs : List Val} {v : Val} {sawForm wantBytes : Bool} :
    Keeps c S s0 xs (printResult c v sawForm wantBytes) := by
  have hS' : ∀ e, e ≠ .errEvalDepth → S e := fun e _ => hS e
  refine .ite .pure (savepoint_bind (.bind (mlGcProtect_at hS') fun _ => ?_))
  exact .bind (andThen_restore (mlPrintToAlloc_keeps hS')) fun _ => .pure fun _ h => h

/-- The bookkeeping of `t` is that of `s`. -/
structure Balanced (s t : State) : Prop where
  protect : t.gcProtect = s.gcProtect
  evalDepth : t.evalDepth = s.evalDepth
  printDepth : t.printDepth = s.printDepth
  equalDepth : t.equalDepth = s.equalDepth

/-- However `microlisp_eval` returns, the protect stack and the depth counters are as
before the call; when it returns OK there is no recorded error. -/
theorem microlispEval_balanced (c : Config) (n : Nat) (source : Option Bytes) (sourceLen : Nat) (wantBytes : Bool)
    (s : State) :
    match (microlispEval c n source sourceLen wantBytes s).res with
    | .ok _ => Balanced s (microlispEval c n source sourceLen wantBytes s).state ∧
        (microlispEval c n source sourceLen wantBytes s).state.lastError = ⟨[], 0, 0⟩
    | .error (.err _) => Balanced s (microlispEval c n source sourceLen wantBytes s).state
    | .error _ => True := by
  have hbalanced : ∀ {t}, s.Inside c [] t → Balanced s t := fun h =>
    ⟨by rw [h.protect, List.append_nil], h.evalDepth, h.printDepth, h.equalDepth⟩
  have h : wp (s.watch c) (microlispEval c n source sourceLen wantBytes) s
      (fun _ t => s.Inside c [] t ∧ t.lastError = ⟨[], 0, 0⟩) (fun _ t => s.Inside c [] t) := by
    unfold microlispEval
    split
    · exact wp_mono (raise_fails (S := anyStatus) trivial s .refl) (fun _ _ h => h) (fun _ _ h => h.2)
    · let s1 := mlClearError s
      have hs1 : s1.At c [] s1 := .refl
      refine wp_bind (wp_modify ?_)
      have hrun : Keeps c anyStatus s1 [] (do
          let x ← readEvalLoop c n (((source.getD []).take sourceLen).length + 1)
            (Reader.start ((source.getD []).take sourceLen)) mvUndef false
          printResult c x.1 x.2 wantBytes) :=
        .bind (readEvalLoop_keeps (fun _ => trivial) n _ _ _ _) fun x => printResult_keeps (fun _ => trivial)
      have hs : ∀ t, s1.Inside c [] t → s.Inside c [] t := fun t h => { h with }
      exact wp_mono (hrun s1 hs1) (fun _ t h => ⟨hs t h.toInside, h.lastError⟩) (fun _ t h => hs t h.2)
  have hk := (h fun _ _ => id).2
  split at hk <;> rename_i hr <;> simp only [hr]
  · exact ⟨hbalanced hk.1, hk.2⟩
  · exact hbalanced hk

/-- Of what was in the heap before an evaluation, whatever it records and whatever it leaves
still holds each object as it was, but for the values of frames and names added to them. -/
theorem mlEval_immutable (c : Config) (n : Nat) (form env : Val) (s : State) (a : Nat) (o o' : Obj)
    (ha : s.heap.get a = some o) :
    (∀ h, .heap h ∈ (mlEval c n form env s).trace → h.get a = some o' → o.Grows o') ∧
    ((∃ r, (mlEval c n form env s).Ends r) → (mlEval c n form env s).state.heap.get a = some o' → o.Grows o') := by
  have hext : ∀ h, s.heap.Ext c h → h.get a = some o' → o.Grows o' := by
    intro h hx ho'
    obtain ⟨o₁, ho₁, hg⟩ := hx.old a o' (Heap.lt_next_of_get ha).2 ho'
    rw [ha] at ho₁
    cases ho₁
    exact hg
  obtain ⟨hgood, hk⟩ := mlEval_keeps (c := c) (S := anyStatus) (fun _ => trivial) n s [] form env s .refl fun _ _ => id
  refine ⟨fun h hh => hext h (hgood _ hh h rfl), fun ⟨r, hr⟩ => hext _ ?_⟩
  rw [Run.Ends] at hr
  rw [hr] at hk
  cases r with
  | ok v => exact hk.heap
  | error e => exact hk.2.heap

/-- The form `(define x 7)` next to the top-level frame. -/
def State.defineForm : State :=
  { State.created with
    heap := ((State.created.heap.alloc (.pair (mlMakeFix 7) mvNil)).alloc (.pair (.sym 13) (.obj 2))).alloc
      (.pair (.sym 2) (.obj 3))
    symtab := ⟨State.created.symtab.entries ++ [ascii "x"], 32⟩ }

theorem mlEval_immutable_define :
    (mlEval .created 2 (.obj 4) (.obj 1) State.defineForm).state.heap.get 1
        = some (.env mvNil [(.sym 13, mlMakeFix 7)] 8) ∧
      (Obj.env mvNil [] 0).Grows (.env mvNil [(.sym 13, mlMakeFix 7)] 8) := by
  have hget : (mlEval .created 2 (.obj 4) (.obj 1) State.defineForm).state.heap.get 1
      = some (.env mvNil [(.sym 13, mlMakeFix 7)] 8) := by decide +kernel
  have hends : (mlEval .created 2 (.obj 4) (.obj 1) State.defineForm).res = .ok mvUndef := by decide +kernel
  exact ⟨hget, (mlEval_immutable .created 2 (.obj 4) (.obj 1) State.defineForm 1 _ _ rfl).2 ⟨.ok _, hends⟩ hget⟩

end Calls

/-! ## Loop heads -/

theorem ok_of_triple {α : Type} {P : State → Prop} {Q : α → State → Prop} {E : Status → State → Prop} {m : ML α}
    {good : Event → Prop} (h : Triple (Mode.noting good) P m Q E) {s : State} (hs : P s) {a : α}
    (ha : (m s).res = .ok a) :
    Q a (m s).state := by
  have hk := (h s hs fun _ _ => id).2
  rwa [ha] at hk

/-- The states at the head of the loop of an `eval_body` entered at `s0`: the first one
follows the two pushes, each further one a turn of the loop. -/
inductive Head (c : Config) (ev : Val → Val → ML Val) (s0 : State) (form env : Val) : State → Prop
  | enter : ((do
      mlGcProtect c form
      (mlGcProtect c env).onErr (mlGcRestore s0.gcProtect.length) : ML Unit) s0).res = .ok () →
      Head c ev s0 form env ((do
        mlGcProtect c form
        (mlGcProtect c env).onErr (mlGcRestore s0.gcProtect.length) : ML Unit) s0).state
  | turn {t : State} : Head c ev s0 form env t → (evalIter c ev s0.gcProtect.length t).res = .ok .again →
      Head c ev s0 form env (evalIter c ev s0.gcProtect.length t).state

end Microlisp
