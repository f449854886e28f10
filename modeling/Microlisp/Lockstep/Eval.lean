import Microlisp.Eval
import Microlisp.Lockstep.Primitives
/-!
# Evaluations in lockstep
-/
namespace Microlisp

open Prog

/-- What two evaluations in lockstep need besides. -/
structure LockstepEval (bl br : Halt Status → Prop) (c c' : Config) (P : Nat → Nat → Prop)
    (R : State → State → Prop) : Prop
    extends Lockstep bl br c c' P R where
  getSlot : ∀ n n', P n n' → Sim bl br R (gcProtectGet n) (gcProtectGet n')
  nextSlot : ∀ n n', P n n' → P (n + 1) (n' + 1)
  evalDepth : ∀ s t, R s t → s.evalDepth = t.evalDepth
  setEvalDepth : ∀ n s t, R s t → R { s with evalDepth := n } { t with evalDepth := n }
  push : ∀ v s t, R s t → R (pushPending v s) (pushPending v t)
  pop : ∀ s t, R s t → R (popPending s) (popPending t)
  maxEvalDepth : Limits bl .errEvalDepth c.maxEvalDepth c'.maxEvalDepth
  symQuote : c.symQuote = c'.symQuote
  symIf : c.symIf = c'.symIf
  symDefine : c.symDefine = c'.symDefine
  symLambda : c.symLambda = c'.symLambda
  symSetBang : c.symSetBang = c'.symSetBang
  symLet : c.symLet = c'.symLet
  symLetStar : c.symLetStar = c'.symLetStar
  symLetrec : c.symLetrec = c'.symLetrec
  symBegin : c.symBegin = c'.symBegin
  symAnd : c.symAnd = c'.symAnd
  symOr : c.symOr = c'.symOr
  symCond : c.symCond = c'.symCond
  symElse : c.symElse = c'.symElse

section Lockstep
variable {bl br : Halt Status → Prop} {c c' : Config} {P : Nat → Nat → Prop} {R : State → State → Prop}
  {ev ev' : Val → Val → ML Val} {args env : Val}

section Base
variable (h : Lockstep bl br c c' P R)
include h

theorem properListLength_lockstep {v : Val} : Sim bl br R (properListLength v) (properListLength v) :=
  (walkBound_lockstep h).bind fun _ => (walkList_lockstep h _).bind fun _ => .pure _

/-! ## Closures -/

theorem closureArity_lockstep {params : Val} : Sim bl br R (closureArity params) (closureArity params) := by
  have hloop : ∀ n cur k, Sim bl br R (closureArityLoop n cur k) (closureArityLoop n cur k) := by
    intro n
    induction n with
    | zero => exact fun _ _ => .timeout
    | succ n ih =>
      intro cur k
      refine (isObjType_lockstep h).bind fun _ => .ite (fun _ => (car_lockstep h).bind fun _ => ?_) fun _ => ?_
      · exact .ite (fun _ => raise_lockstep h) fun _ => (cdr_lockstep h).bind fun _ => ih _ _
      · exact .ite (fun _ => .pure _) fun _ => .ite (fun _ => .pure _) fun _ => raise_lockstep h
  exact (walkBound_lockstep h).bind fun _ => hloop _ _ _

theorem makeClosure_lockstep {params body : Val} :
    Sim bl br R (makeClosure c params body env) (makeClosure c' params body env) := by
  refine (closureArity_lockstep h).bind fun _ => savepoint_lockstep h fun n n' hn => ?_
  refine (onErr_restore_lockstep h hn ?_).bind fun _ => andThen_restore_lockstep h hn (h.gcAlloc _ _)
  exact (h.protect _).bind fun _ => (h.protect _).bind fun _ => h.protect _

theorem buildList_lockstep {argv : List Val} {start stop : Nat} :
    Sim bl br R (buildList c argv start stop) (buildList c' argv start stop) := by
  have hloop : ∀ n n', P n n' → ∀ i head,
      Sim bl br R (buildListLoop c argv start n i head) (buildListLoop c' argv start n' i head) := by
    intro n n' hn i
    induction i with
    | zero => exact fun _ => .pure _
    | succ i ih =>
      refine fun head => argvGet_lockstep.bind fun _ => (onErr_restore_lockstep h hn (h.protect _)).bind fun _ => ?_
      refine (onErr_restore_lockstep h hn ((h.gcAlloc _ _).andThen fun s t => h.unprotect 1 s t)).bind fun cell => ?_
      exact (Sim.modify fun s t => h.setSlot n n' cell s t hn).bind fun _ => ih _
  refine savepoint_lockstep h fun n n' hn => (h.protect _).bind fun _ => (hloop n n' hn _ _).bind fun _ => ?_
  exact (Sim.modify fun s t => h.restore n n' s t hn).bind fun _ => .pure _

theorem applyClosureBind_lockstep {closure : Val} {argv : List Val} :
    Sim bl br R (applyClosureBind c closure argv) (applyClosureBind c' closure argv) := by
  have hbind : ∀ n n', P n n' → ∀ env k i cur,
      Sim bl br R (bindParams c env argv n k i cur) (bindParams c' env argv n' k i cur) := by
    intro n n' hn env k
    induction k with
    | zero => exact fun _ _ => .pure _
    | succ k ih =>
      refine fun i cur => (car_lockstep h).bind fun _ => argvGet_lockstep.bind fun _ => ?_
      refine (onErr_restore_lockstep h hn (mlEnvDefine_lockstep h)).bind fun _ => ?_
      exact (cdr_lockstep h).bind fun _ => ih _ _
  refine (closureFields_lockstep h).bind fun _ => .ite (fun _ => raise_lockstep h) fun _ => ?_
  refine .ite (fun _ => raise_lockstep h) fun _ => (h.gcAlloc _ _).bind fun env =>
    savepoint_lockstep h fun n n' hn => ?_
  refine (h.protect _).bind fun _ => (closureFields_lockstep h).bind fun _ => (hbind n n' hn _ _ _ _).bind fun cur => ?_
  have hend : Sim bl br R (do
      modify (mlGcRestore n)
      pure env : ML Val) (do
      modify (mlGcRestore n')
      pure env : ML Val) :=
    (Sim.modify fun s t => h.restore n n' s t hn).bind fun _ => .pure _
  refine .ite (fun _ => .ite (fun _ => ?_) fun _ => ?_) fun _ => hend
  · exact (onErr_restore_lockstep h hn (raise_lockstep h)).bind fun _ => hend
  · refine (onErr_restore_lockstep h hn (buildList_lockstep h)).bind fun _ => ?_
    exact (onErr_restore_lockstep h hn (mlEnvDefine_lockstep h)).bind fun _ => hend

/-! ## Special forms -/

theorem handleQuote_lockstep : Sim bl br R (handleQuote args) (handleQuote args) :=
  (properListLength_lockstep h).bind fun _ => .ite (fun _ => raise_lockstep h) fun _ =>
    (car_lockstep h).bind fun _ => .pure _

theorem defineProtected_lockstep {name value : Val} :
    Sim bl br R (defineProtected c env name value) (defineProtected c' env name value) :=
  savepoint_lockstep h fun _ _ hn => (h.protect _).bind fun _ =>
    (andThen_restore_lockstep h hn (mlEnvDefine_lockstep h)).bind fun _ => .pure _

theorem onUnbound_lockstep {α : Type} {m m' : ML α} {message : Bytes} {name : Val} (hm : Sim bl br R m m') :
    Sim bl br R (onUnbound message name m) (onUnbound message name m') := by
  refine hm.onError fun e s t hR => ?_
  rw [h.symtab s t hR]
  split
  · exact h.setError _ _ _ s t hR
  · exact hR

theorem handleLambda_lockstep : Sim bl br R (handleLambda c args env) (handleLambda c' args env) := by
  refine (properListLength_lockstep h).bind fun _ => .ite (fun _ => raise_lockstep h) fun _ => ?_
  refine (car_lockstep h).bind fun _ => (cdr_lockstep h).bind fun _ => (isObjType_lockstep h).bind fun _ => ?_
  exact .ite (fun _ => raise_lockstep h) fun _ => (makeClosure_lockstep h).bind fun _ => .pure _

variable (hev : ∀ form env, Sim bl br R (ev form env) (ev' form env))
include hev

theorem evalArgList_lockstep : Sim bl br R (evalArgList c ev args env) (evalArgList c' ev' args env) := by
  have hloop : ∀ i cur argv, Sim bl br R (evalArgLoop c ev env i cur argv) (evalArgLoop c' ev' env i cur argv) := by
    intro i
    induction i with
    | zero => exact fun _ _ => .pure _
    | succ i ih =>
      intro cur argv
      refine (car_lockstep h).bind fun _ => ((hev _ _).onErr fun s t => h.unprotect _ s t).bind fun _ => ?_
      refine ((h.protect _).onErr fun s t => h.unprotect _ s t).bind fun _ => ?_
      exact (cdr_lockstep h).bind fun _ => ih _ _
  refine (properListLength_lockstep h).bind fun n => ?_
  cases n with
  | none => exact raise_lockstep h
  | some n => exact .ite (fun _ => .pure _) fun _ => (h.rawAlloc _).bind fun _ => hloop _ _ _

theorem handleIf_lockstep : Sim bl br R (handleIf ev args env) (handleIf ev' args env) := by
  refine (properListLength_lockstep h).bind fun n => .ite (fun _ => raise_lockstep h) fun _ => ?_
  refine (car_lockstep h).bind fun testForm => (cdr_lockstep h).bind fun _ => (car_lockstep h).bind fun thenForm => ?_
  have htest : ∀ elseForm, Sim bl br R (do
      let testV ← ev testForm env
      if mlTruthy testV then pure (SfResult.tco thenForm env)
      else if n = some 3 then pure (.tco elseForm env) else pure (.value mvUndef)) (do
      let testV ← ev' testForm env
      if mlTruthy testV then pure (SfResult.tco thenForm env)
      else if n = some 3 then pure (.tco elseForm env) else pure (.value mvUndef)) :=
    fun _ => (hev _ _).bind fun _ => .ite (fun _ => .pure _) fun _ => .ite (fun _ => .pure _) fun _ => .pure _
  refine .ite (fun _ => ?_) fun _ => (Sim.pure _).bind fun _ => htest _
  exact (cdr_lockstep h).bind fun _ => (car_lockstep h).bind fun _ => htest _

theorem handleDefine_lockstep : Sim bl br R (handleDefine c ev args env) (handleDefine c' ev' args env) := by
  refine (properListLength_lockstep h).bind fun _ => .ite (fun _ => raise_lockstep h) fun _ => ?_
  refine (car_lockstep h).bind fun _ => (cdr_lockstep h).bind fun _ => .ite (fun _ => ?_) fun _ => ?_
  · refine .ite (fun _ => raise_lockstep h) fun _ => (car_lockstep h).bind fun _ => ?_
    exact (hev _ _).bind fun _ => defineProtected_lockstep h
  · refine (isObjType_lockstep h).bind fun _ => .ite (fun _ => (car_lockstep h).bind fun _ => ?_) fun _ =>
      raise_lockstep h
    refine .ite (fun _ => raise_lockstep h) fun _ => (cdr_lockstep h).bind fun _ => ?_
    exact (makeClosure_lockstep h).bind fun _ => defineProtected_lockstep h

theorem handleSetBang_lockstep : Sim bl br R (handleSetBang c ev args env) (handleSetBang c' ev' args env) := by
  refine (properListLength_lockstep h).bind fun _ => .ite (fun _ => raise_lockstep h) fun _ => ?_
  refine (car_lockstep h).bind fun _ => .ite (fun _ => raise_lockstep h) fun _ => (cdr_lockstep h).bind fun _ => ?_
  refine (car_lockstep h).bind fun _ => (hev _ _).bind fun _ => savepoint_lockstep h fun n n' hn => ?_
  refine (h.protect _).bind fun _ => (onUnbound_lockstep h ?_).bind fun _ => .pure _
  exact andThen_restore_lockstep h hn (mlEnvSet_lockstep h)

theorem beginTco_lockstep {forms : Val} : Sim bl br R (beginTco ev forms env) (beginTco ev' forms env) := by
  have hloop : ∀ i forms, Sim bl br R (beginLoop ev env i forms) (beginLoop ev' env i forms) := by
    intro i
    induction i with
    | zero => exact fun _ => .timeout
    | succ i ih =>
      refine fun forms => (cdr_lockstep h).bind fun _ => (isObjType_lockstep h).bind fun _ =>
        .ite (fun _ => ?_) fun _ => .pure _
      exact (car_lockstep h).bind fun _ => (hev _ _).bind fun _ => (cdr_lockstep h).bind fun _ => ih _
  refine .ite (fun _ => .pure _) fun _ => (properListLength_lockstep h).bind fun n => ?_
  cases n with
  | none => exact raise_lockstep h
  | some n => exact (hloop _ _).bind fun _ => (car_lockstep h).bind fun _ => .pure _

omit hev in
theorem bindingOk_lockstep {pair : Val} : Sim bl br R (bindingOk pair) (bindingOk pair) := by
  refine (isObjType_lockstep h).bind fun _ => .ite (fun _ => .pure _) fun _ => (cdr_lockstep h).bind fun _ => ?_
  refine (isObjType_lockstep h).bind fun _ => .ite (fun _ => .pure _) fun _ => (cdr_lockstep h).bind fun _ => ?_
  exact (cdr_lockstep h).bind fun _ => .ite (fun _ => .pure _) fun _ => (car_lockstep h).bind fun _ => .pure _

theorem handleLetFamily_lockstep {starlike recursive : Bool} {formName : String} :
    Sim bl br R (handleLetFamily c ev args env starlike recursive formName)
      (handleLetFamily c' ev' args env starlike recursive formName) := by
  have hpre : ∀ n n', P n n' → ∀ inner i cur,
      Sim bl br R (letrecPredefine c inner n formName i cur) (letrecPredefine c' inner n' formName i cur) := by
    intro n n' hn inner i
    induction i with
    | zero => exact fun _ => .timeout
    | succ i ih =>
      refine fun cur => (isObjType_lockstep h).bind fun _ => .ite (fun _ => ?_) fun _ => .pure _
      refine (car_lockstep h).bind fun _ => (bindingOk_lockstep h).bind fun _ => .ite (fun _ => ?_) fun _ => ?_
      · exact onErr_restore_lockstep h hn (raise_lockstep h)
      · refine (car_lockstep h).bind fun _ => (onErr_restore_lockstep h hn (mlEnvDefine_lockstep h)).bind fun _ => ?_
        exact (cdr_lockstep h).bind fun _ => ih _
  have hbind : ∀ n n', P n n' → ∀ inner initEnv i cur,
      Sim bl br R (letBindLoop c ev inner initEnv n formName i cur)
        (letBindLoop c' ev' inner initEnv n' formName i cur) := by
    intro n n' hn inner initEnv i
    induction i with
    | zero => exact fun _ => .timeout
    | succ i ih =>
      refine fun cur => (isObjType_lockstep h).bind fun _ => .ite (fun _ => ?_) fun _ => .pure _
      refine (car_lockstep h).bind fun _ => (bindingOk_lockstep h).bind fun _ => .ite (fun _ => ?_) fun _ => ?_
      · exact onErr_restore_lockstep h hn (raise_lockstep h)
      · refine (car_lockstep h).bind fun _ => (cdr_lockstep h).bind fun _ => (car_lockstep h).bind fun _ => ?_
        refine (onErr_restore_lockstep h hn (hev _ _)).bind fun _ => savepoint_lockstep h fun k k' hk => ?_
        refine (onErr_restore_lockstep h hn (h.protect _)).bind fun _ => ?_
        refine (onErr_restore_lockstep h hn (andThen_restore_lockstep h hk (mlEnvDefine_lockstep h))).bind fun _ => ?_
        exact (cdr_lockstep h).bind fun _ => ih _
  refine (properListLength_lockstep h).bind fun _ => .ite (fun _ => raise_lockstep h) fun _ => ?_
  refine (car_lockstep h).bind fun bindings => (cdr_lockstep h).bind fun body =>
    (properListLength_lockstep h).bind fun n => ?_
  cases n with
  | none => exact raise_lockstep h
  | some blen =>
    refine (h.gcAlloc _ _).bind fun inner => savepoint_lockstep h fun n n' hn => (h.protect _).bind fun _ => ?_
    have hbody : ∀ initEnv, Sim bl br R (do
        letBindLoop c ev inner initEnv n formName (blen + 1) bindings
        (beginTco ev body inner).andThen (mlGcRestore n)) (do
        letBindLoop c' ev' inner initEnv n' formName (blen + 1) bindings
        (beginTco ev' body inner).andThen (mlGcRestore n')) :=
      fun _ => (hbind n n' hn _ _ _ _).bind fun _ => andThen_restore_lockstep h hn (beginTco_lockstep h hev)
    exact .ite (fun _ => (hpre n n' hn _ _ _).bind fun _ => hbody _) fun _ => hbody _

theorem handleAndOr_lockstep {isOr : Bool} :
    Sim bl br R (handleAndOr ev args env isOr) (handleAndOr ev' args env isOr) := by
  have hloop : ∀ i args, Sim bl br R (andOrLoop ev env isOr i args) (andOrLoop ev' env isOr i args) := by
    intro i
    induction i with
    | zero => exact fun _ => .timeout
    | succ i ih =>
      refine fun args => (cdr_lockstep h).bind fun _ => (isObjType_lockstep h).bind fun _ =>
        .ite (fun _ => ?_) fun _ => ?_
      · refine (car_lockstep h).bind fun _ => (hev _ _).bind fun _ => .ite (fun _ => .pure _) fun _ => ?_
        exact (cdr_lockstep h).bind fun _ => ih _
      · exact (car_lockstep h).bind fun _ => .pure _
  refine .ite (fun _ => .pure _) fun _ => (properListLength_lockstep h).bind fun n => ?_
  cases n with
  | none => exact raise_lockstep h
  | some n => exact hloop _ _

end Base

variable (h : LockstepEval bl br c c' P R) (hev : ∀ form env, Sim bl br R (ev form env) (ev' form env))
include h hev

theorem handleCond_lockstep : Sim bl br R (handleCond c ev args env) (handleCond c' ev' args env) := by
  have h' := h.toLockstep
  have hloop : ∀ i cur, Sim bl br R (condLoop c ev env i cur) (condLoop c' ev' env i cur) := by
    intro i
    induction i with
    | zero => exact fun _ => .timeout
    | succ i ih =>
      intro cur
      unfold condLoop
      rw [← h.symElse]
      refine (isObjType_lockstep h').bind fun _ => .ite (fun _ => (car_lockstep h').bind fun _ => ?_) fun _ => .pure _
      refine (isObjType_lockstep h').bind fun _ => .ite (fun _ => raise_lockstep h') fun _ =>
        (car_lockstep h').bind fun _ => ?_
      refine (cdr_lockstep h').bind fun _ => .ite (fun _ => beginTco_lockstep h' hev) fun _ =>
        (hev _ _).bind fun _ => ?_
      refine .ite (fun _ => .ite (fun _ => .pure _) fun _ => beginTco_lockstep h' hev) fun _ => ?_
      exact (cdr_lockstep h').bind fun _ => ih _
  refine (properListLength_lockstep h').bind fun n => ?_
  cases n with
  | none => exact raise_lockstep h'
  | some n => exact hloop _ _

theorem dispatch_lockstep {head rest : Val} :
    Sim bl br R (dispatch c ev head rest env) (dispatch c' ev' head rest env) := by
  have h' := h.toLockstep
  unfold dispatch
  simp only [← h.symQuote, ← h.symIf, ← h.symDefine, ← h.symSetBang, ← h.symLambda, ← h.symBegin, ← h.symLet,
    ← h.symLetStar, ← h.symLetrec, ← h.symAnd, ← h.symOr, ← h.symCond]
  refine .ite (fun _ => handleQuote_lockstep h') fun _ => .ite (fun _ => handleIf_lockstep h' hev) fun _ => ?_
  refine .ite (fun _ => handleDefine_lockstep h' hev) fun _ => .ite (fun _ => handleSetBang_lockstep h' hev) fun _ => ?_
  refine .ite (fun _ => handleLambda_lockstep h') fun _ => .ite (fun _ => beginTco_lockstep h' hev) fun _ => ?_
  refine .ite (fun _ => handleLetFamily_lockstep h' hev) fun _ => .ite (fun _ => handleLetFamily_lockstep h' hev)
    fun _ => ?_
  refine .ite (fun _ => handleLetFamily_lockstep h' hev) fun _ =>
    .ite (fun _ => handleAndOr_lockstep h' hev) fun _ => ?_
  refine .ite (fun _ => handleAndOr_lockstep h' hev) fun _ => .ite (fun _ => handleCond_lockstep h hev) fun _ => .pure _

/-! ## The loop -/

omit hev in
theorem finish_lockstep {n n' : Nat} (hn : P n n') {v : Val} : Sim bl br R (finish n v) (finish n' v) :=
  (Sim.modify fun s t => h.restore n n' s t hn).bind fun _ => .pure _

omit hev in
theorem loopWith_lockstep {n n' : Nat} (hn : P n n') {form env : Val} :
    Sim bl br R (loopWith n form env) (loopWith n' form env) :=
  (Sim.modify fun s t => h.setSlot n n' form s t hn).bind fun _ =>
    (Sim.modify fun s t => h.setSlot _ _ env s t (h.nextSlot n n' hn)).bind fun _ => .pure _

theorem applyClosure_lockstep {n n' k k' : Nat} (hn : P n n') (hk : P k k') {proc : Val} {argv : List Val} :
    Sim bl br R (applyClosure c ev n k proc argv) (applyClosure c' ev' n' k' proc argv) := by
  have h' := h.toLockstep
  refine (onErr_restore_lockstep h' hn ((applyClosureBind_lockstep h').andThen fun s t => h.unprotect _ s t)).bind
    fun e => ?_
  refine (closureFields_lockstep h').bind fun _ => (Sim.modify fun s t => h.push e s t).bind fun _ => ?_
  refine (onErr_restore_lockstep h' hn ((beginTco_lockstep h' hev).andThen fun s t hR => ?_)).bind fun r => ?_
  · exact h.restore k k' _ _ hk (h.pop s t hR)
  · cases r with
    | tco form env => exact loopWith_lockstep h hn
    | value v => exact finish_lockstep h hn
    | notHandled => exact loopWith_lockstep h hn

omit hev in
theorem applyPrim_lockstep {n n' k k' : Nat} (hn : P n n') (hk : P k k') {proc : Val} {argv : List Val} :
    Sim bl br R (applyPrim c n k proc argv) (applyPrim c' n' k' proc argv) := by
  have h' := h.toLockstep
  refine (primFields_lockstep h').bind fun _ => .ite (fun _ => (raise_lockstep h').onErr fun s t hR => ?_) fun _ => ?_
  · exact h.restore n n' _ _ hn (h.unprotect _ s t hR)
  · refine (onErr_restore_lockstep h' hn ((callPrim_lockstep h').andThen fun s t hR => ?_)).bind fun _ =>
      finish_lockstep h hn
    exact h.restore k k' _ _ hk (h.unprotect _ s t hR)

theorem evalPair_lockstep {n n' : Nat} (hn : P n n') {form : Val} :
    Sim bl br R (evalPair c ev n form env) (evalPair c' ev' n' form env) := by
  have h' := h.toLockstep
  refine (car_lockstep h').bind fun head => (cdr_lockstep h').bind fun rest => ?_
  have hcall : Sim bl br R (evalCall c ev n head rest env) (evalCall c' ev' n' head rest env) := by
    refine (onErr_restore_lockstep h' hn (hev _ _)).bind fun proc => savepoint_lockstep h' fun k k' hk => ?_
    refine (onErr_restore_lockstep h' hn (h.protect _)).bind fun _ => ?_
    refine (onErr_restore_lockstep h' hn (evalArgList_lockstep h' hev)).bind fun argv => ?_
    refine (Sim.emit _ _).bind fun _ => ?_
    refine (isObjType_lockstep h').bind fun _ => .ite (fun _ => applyPrim_lockstep h hn hk) fun _ => ?_
    refine (isObjType_lockstep h').bind fun _ => .ite (fun _ => applyClosure_lockstep h hev hn hk) fun _ => ?_
    exact (Sim.modify fun s t => h.unprotect _ s t).bind fun _ => onErr_restore_lockstep h' hn (raise_lockstep h')
  refine .ite (fun _ => ?_) fun _ => hcall
  refine (onErr_restore_lockstep h' hn (dispatch_lockstep h hev)).bind fun r => ?_
  cases r with
  | value v => exact finish_lockstep h hn
  | tco form env => exact loopWith_lockstep h hn
  | notHandled => exact hcall

theorem evalIter_lockstep {n n' : Nat} (hn : P n n') : Sim bl br R (evalIter c ev n) (evalIter c' ev' n') := by
  have h' := h.toLockstep
  refine (h.getSlot n n' hn).bind fun form => (h.getSlot _ _ (h.nextSlot n n' hn)).bind fun env => ?_
  cases form with
  | fix p => exact finish_lockstep h hn
  | imm i => exact finish_lockstep h hn
  | sym i =>
    refine (onErr_restore_lockstep h' hn (onUnbound_lockstep h' (mlEnvLookup_lockstep h'))).bind fun _ => ?_
    exact finish_lockstep h hn
  | obj a =>
    exact (isObjType_lockstep h').bind fun _ => .ite (fun _ => evalPair_lockstep h hev hn) fun _ => finish_lockstep h hn
  | reserved w => exact (Sim.emit _ _).bind fun _ => onErr_restore_lockstep h' hn (raise_lockstep h')

theorem evalBody_lockstep {form : Val} (turns : Nat) :
    Sim bl br R (evalBody c ev turns form env) (evalBody c' ev' turns form env) := by
  have h' := h.toLockstep
  have hloop : ∀ turns n n', P n n' → Sim bl br R (evalLoop c ev n turns) (evalLoop c' ev' n' turns) := by
    intro turns
    induction turns with
    | zero => exact fun _ _ _ => .timeout
    | succ turns ih =>
      refine fun n n' hn => (evalIter_lockstep h hev hn).bind fun i => ?_
      cases i with
      | done v => exact .pure _
      | again => exact ih n n' hn
  refine savepoint_lockstep h' fun n n' hn => (h.protect _).bind fun _ => ?_
  exact (onErr_restore_lockstep h' hn (h.protect _)).bind fun _ => hloop _ _ _ hn

omit hev in
/-- Evaluations from related states end alike. -/
theorem mlEval_lockstep (n : Nat) (form env : Val) : Sim bl br R (mlEval c n form env) (mlEval c' n form env) := by
  induction n generalizing form env with
  | zero => exact .timeout
  | succ n ih =>
    have hdepth : Sim bl br R (gets State.evalDepth : ML Nat) (gets State.evalDepth : ML Nat) := .gets h.evalDepth
    refine hdepth.bind fun _ => limit_lockstep h.toLockstep h.maxEvalDepth (fun hm => by rw [hm]) ?_
    refine (Sim.modify fun s t hR => ?_).bind fun _ => ?_
    · rw [← h.evalDepth s t hR]
      exact h.setEvalDepth _ s t hR
    · refine (evalBody_lockstep h ih _).andThen fun s t hR => ?_
      unfold leaveEval
      rw [← h.evalDepth s t hR]
      exact h.setEvalDepth _ s t hR

end Lockstep
end Microlisp
