import Microlisp.Tidy.Primitives
import Microlisp.Balance.Eval
/-!
# Evaluation keeps a heap tidy
-/
namespace Microlisp

open Prog

/-- Every evaluation of a value that fits, in an environment that fits, is tidy. -/
def EvTidy (c : Config) (ev : Val → Val → ML Val) : Prop :=
  ∀ vs form env, form.Known vs → env.Known vs → Tidies c 0 vs (ev form env) fun v => [v]

/-- The values in the result of a special form. -/
def SfResult.vals : SfResult → List Val
  | .notHandled => []
  | .value v => [v]
  | .tco form env => [form, env]

/-- The values in the result of a turn of the loop. -/
def Iter.vals : Iter → List Val
  | .done v => [v]
  | .again => []

section Handlers
variable {c : Config} {ev : Val → Val → ML Val} {vs argv : List Val} {args env v w : Val}

theorem tidy_value (hv : v.Known vs) : Tidies c 0 vs (pure (.value v) : ML SfResult) SfResult.vals := by
  apply Tidies.pure
  intro w hw
  rw [List.mem_singleton.1 hw]
  exact hv

theorem tidy_tco (hv : v.Known vs) (hw : w.Known vs) : Tidies c 0 vs (pure (.tco v w) : ML SfResult) SfResult.vals := by
  apply Tidies.pure
  intro x hx
  rcases List.mem_pair.1 hx with rfl | rfl
  · exact hv
  · exact hw

/-! ## Argument lists and closures -/

theorem closureArity_tidy {params : Val} : Tidies c 0 vs (closureArity params) fun _ => [] := by
  have hloop : ∀ n cur k, Tidies c 0 vs (closureArityLoop n cur k) fun _ => [] := by
    intro n
    induction n with
    | zero => exact fun _ _ => .timeout
    | succ n ih =>
      intro cur k
      refine .seq (.reads isObjType_reads) fun _ => .ite (.seq (.reads car_reads) fun param => ?_) ?_
      · exact .ite .raise (.seq (.reads cdr_reads) fun _ => ih _ _)
      · exact .ite .none (.ite .none .raise)
  exact .seq (.reads .gets) fun _ => hloop _ _ _

theorem makeClosure_tidy {params body : Val} (hp : params.Known vs) (hb : body.Known vs) (he : env.Known vs) :
    Tidies c 0 vs (makeClosure c params body env) fun v => [v] := by
  apply closureArity_tidy.seq
  intro arity
  apply Tidies.savepoint
  intro sp
  have hprotect : Tidies c 0 vs (do
      mlGcProtect c params
      mlGcProtect c body
      mlGcProtect c env) fun _ => [] :=
    .seq (.mlGcProtect hp) fun _ => .seq (.mlGcProtect hb) fun _ => .mlGcProtect he
  apply hprotect.onErr_restore.seq
  intro _
  apply Tidies.andThen_restore
  apply Tidies.gcAlloc
  intro v hv
  simp only [Obj.refs, List.mem_cons, List.not_mem_nil, or_false] at hv
  rcases hv with rfl | rfl | rfl
  · exact he
  · exact hp
  · exact hb

theorem bindParams_tidy {sp : Nat} (hargv : ∀ v ∈ argv, v.Known vs) (n i : Nat) (cur : Val) (hcur : cur.Known vs) :
    Tidies c 0 vs (bindParams c env argv sp n i cur) fun v => [v] := by
  induction n generalizing vs i cur with
  | zero => exact .known hcur
  | succ n ih =>
    apply Tidies.car.bind
    intro name
    apply (argvGet_tidy fun v hv => (hargv v hv).tail).bind
    intro arg
    apply (mlEnvDefine_tidy Val.Known.top.tail .top).onErr_restore.seq
    intro _
    apply Tidies.cdr.bind
    intro cur
    exact ih (fun v hv => (hargv v hv).tail.tail.tail) _ cur .top

theorem buildList_tidy {start stop : Nat} (hargv : ∀ v ∈ argv, v.Known vs) :
    Tidies c 0 vs (buildList c argv start stop) fun v => [v] := by
  have hloop : ∀ sp n vs head, (∀ v ∈ argv, v.Known vs) → head.Known vs →
      Tidies c 0 vs (buildListLoop c argv start sp n head) fun v => [v] := by
    intro sp n
    induction n with
    | zero => exact fun _ _ _ hhead => .known hhead
    | succ n ih =>
      intro vs head hargv hhead
      apply (argvGet_tidy hargv).bind
      intro elem
      apply (Tidies.mlGcProtect .top).onErr_restore.seq
      intro _
      apply (Tidies.mlGcAllocPair .top hhead.tail).andThen_unprotect.onErr_restore.bind
      intro cell
      apply (Tidies.modify fun s hs => hs.setSlot .top).seq
      intro _
      exact ih _ cell (fun v hv => (hargv v hv).tail.tail) .top
  apply Tidies.savepoint
  intro sp
  apply (Tidies.mlGcProtect plain_imm.known).seq
  intro _
  apply (hloop sp _ _ mvNil hargv plain_imm.known).bind
  intro head
  exact .seq (.modify fun s hs => hs.restore sp) fun _ => .known .top

theorem mlGcAllocEnv_tidy (he : env.Known vs) : Tidies c 0 vs (mlGcAllocEnv c env) fun v => [v] := by
  apply Tidies.gcAlloc
  intro v hv
  rw [List.mem_singleton.1 hv]
  exact he

theorem applyClosureBind_tidy {closure : Val} (hargv : ∀ v ∈ argv, v.Known vs) :
    Tidies c 0 vs (applyClosureBind c closure argv) fun v => [v] := by
  apply Tidies.closureFields.bind
  intro cl
  apply Tidies.ite .raise
  apply Tidies.ite .raise
  apply (mlGcAllocEnv_tidy (.head (by simp))).bind
  intro e
  apply Tidies.savepoint
  intro sp
  apply (Tidies.mlGcProtect .top).seq
  intro _
  apply Tidies.closureFields.bind
  intro cl'
  have hargv' : ∀ v ∈ argv,
      v.Known ([cl'.env, cl'.params, cl'.body] ++ ([e] ++ ([cl.env, cl.params, cl.body] ++ vs))) :=
    fun v hv => (hargv v hv).tail.tail.tail
  apply (bindParams_tidy hargv' _ _ _ (.head (by simp))).bind
  intro cur
  have hend : ∀ {ws : List Val}, e.Known ws → Tidies c 0 ws (do
      modify (mlGcRestore sp)
      pure e) fun v => [v] := fun he => .seq (.modify fun s hs => hs.restore sp) fun _ => .known he
  have he : e.Known ([cur] ++ ([cl'.env, cl'.params, cl'.body] ++ ([e] ++ ([cl.env, cl.params, cl.body] ++ vs)))) :=
    Val.Known.top.tail.tail
  apply Tidies.ite
  · apply Tidies.ite
    · exact .seq (Tidies.onErr_restore .raise) fun _ => hend he
    · apply (buildList_tidy fun v hv => (hargv' v hv).tail).onErr_restore.bind
      intro rest
      apply (mlEnvDefine_tidy Val.Known.top.tail .top).onErr_restore.seq
      exact fun _ => hend he.tail
  · exact hend he

variable (hev : EvTidy c ev)
include hev

theorem evalArgList_tidy (henv : env.Known vs) : Tidies c 0 vs (evalArgList c ev args env) fun argv => argv := by
  have hloop : ∀ n vs cur argv, env.Known vs → (∀ v ∈ argv, v.Known vs) →
      Tidies c 0 vs (evalArgLoop c ev env n cur argv) fun argv => argv := by
    intro n
    induction n with
    | zero => exact fun _ _ _ _ hargv => .pure hargv
    | succ n ih =>
      intro vs cur argv henv hargv
      apply Tidies.car.bind
      intro elem
      apply (hev _ elem env .top henv.tail).onErr_unprotect.bind
      intro v
      apply (Tidies.mlGcProtect .top).onErr_unprotect.seq
      intro _
      apply (Tidies.reads cdr_reads).seq
      intro cur
      apply ih _ cur _ henv.tail.tail
      intro w hw
      rcases List.mem_append.1 hw with hw | hw
      · exact (hargv w hw).tail.tail
      · rw [List.mem_singleton.1 hw]
        exact .top
  apply (Tidies.reads properListLength_reads).seq
  intro n
  cases n with
  | none => exact .raise
  | some argc =>
    refine .ite (.pure (by simp)) (.seq .rawAllocOrFail fun _ => ?_)
    exact hloop _ _ _ [] henv (by simp)

/-! ## Special forms -/

omit hev in
theorem handleQuote_tidy : Tidies c 0 vs (handleQuote args) SfResult.vals := by
  apply (Tidies.reads properListLength_reads).seq
  intro n
  exact .ite .raise (.bind .car fun v => tidy_value .top)

theorem handleIf_tidy (henv : env.Known vs) : Tidies c 0 vs (handleIf ev args env) SfResult.vals := by
  apply (Tidies.reads properListLength_reads).seq
  intro n
  apply Tidies.ite .raise
  apply Tidies.car.bind
  intro testForm
  apply (Tidies.reads cdr_reads).seq
  intro rest
  apply Tidies.car.bind
  intro thenForm
  have htest : ∀ {ws : List Val} elseForm, testForm.Known ws → thenForm.Known ws → elseForm.Known ws → env.Known ws →
      Tidies c 0 ws (do
        let testV ← ev testForm env
        if mlTruthy testV then pure (SfResult.tco thenForm env)
        else if n = some 3 then pure (.tco elseForm env) else pure (.value mvUndef)) SfResult.vals := by
    intro ws elseForm ht hth hel he
    apply (hev _ testForm env ht he).bind
    intro testV
    exact .ite (tidy_tco hth.tail he.tail) (.ite (tidy_tco hel.tail he.tail) (tidy_value plain_imm.known))
  apply Tidies.ite
  · apply (Tidies.reads cdr_reads).seq
    intro rest
    apply Tidies.car.bind
    intro elseForm
    exact htest elseForm Val.Known.top.tail.tail Val.Known.top.tail .top henv.tail.tail.tail
  · apply (Tidies.known plain_imm.known).bind
    intro elseForm
    exact htest elseForm Val.Known.top.tail.tail Val.Known.top.tail .top henv.tail.tail.tail

omit hev in
theorem defineProtected_tidy {name value : Val} (hn : name.Known vs) (hv : value.Known vs) :
    Tidies c 0 vs (defineProtected c env name value) SfResult.vals := by
  apply Tidies.savepoint
  intro sp
  apply (Tidies.mlGcProtect hv).seq
  intro _
  exact .seq (mlEnvDefine_tidy hn hv).andThen_restore fun _ => tidy_value plain_imm.known

theorem handleDefine_tidy (henv : env.Known vs) : Tidies c 0 vs (handleDefine c ev args env) SfResult.vals := by
  apply (Tidies.reads properListLength_reads).seq
  intro n
  apply Tidies.ite .raise
  apply Tidies.car.bind
  intro first
  apply Tidies.cdr.bind
  intro rest
  apply Tidies.ite
  · apply Tidies.ite .raise
    apply Tidies.car.bind
    intro form
    apply (hev _ form env .top henv.tail.tail.tail).bind
    intro value
    exact defineProtected_tidy Val.Known.top.tail.tail.tail .top
  · apply (Tidies.reads isObjType_reads).seq
    intro _
    apply Tidies.ite _ .raise
    apply Tidies.car.bind
    intro name
    apply Tidies.ite .raise
    apply Tidies.cdr.bind
    intro params
    apply (makeClosure_tidy .top Val.Known.top.tail.tail henv.tail.tail.tail.tail).bind
    intro cl
    exact defineProtected_tidy Val.Known.top.tail.tail .top

omit hev in
theorem onUnbound_tidy {α : Type} {m : ML α} {out : α → List Val} {message : Bytes} {name : Val}
    (h : Tidies c 0 vs m out) :
    Tidies c 0 vs (onUnbound message name m) out := by
  apply h.onError
  intro e s hs
  split
  · exact hs.of_eq rfl fun _ hv => hv
  · exact hs

theorem handleSetBang_tidy (henv : env.Known vs) : Tidies c 0 vs (handleSetBang c ev args env) SfResult.vals := by
  apply (Tidies.reads properListLength_reads).seq
  intro n
  apply Tidies.ite .raise
  apply Tidies.car.bind
  intro name
  apply Tidies.ite .raise
  apply (Tidies.reads cdr_reads).seq
  intro rest
  apply Tidies.car.bind
  intro form
  apply (hev _ form env .top henv.tail.tail).bind
  intro value
  apply Tidies.savepoint
  intro sp
  apply (Tidies.mlGcProtect .top).seq
  intro _
  apply (onUnbound_tidy (mlEnvSet_tidy Val.Known.top.tail.tail .top).andThen_restore).seq
  exact fun _ => tidy_value plain_imm.known

omit hev in
theorem handleLambda_tidy (henv : env.Known vs) : Tidies c 0 vs (handleLambda c args env) SfResult.vals := by
  apply (Tidies.reads properListLength_reads).seq
  intro n
  apply Tidies.ite .raise
  apply Tidies.car.bind
  intro params
  apply Tidies.cdr.bind
  intro body
  apply (Tidies.reads isObjType_reads).seq
  intro _
  apply Tidies.ite .raise
  apply (makeClosure_tidy Val.Known.top.tail .top henv.tail.tail).bind
  exact fun cl => tidy_value .top

theorem beginTco_tidy {forms : Val} (henv : env.Known vs) : Tidies c 0 vs (beginTco ev forms env) SfResult.vals := by
  have hloop : ∀ n vs forms, env.Known vs → Tidies c 0 vs (beginLoop ev env n forms) fun _ => [] := by
    intro n
    induction n with
    | zero => exact fun _ _ _ => .timeout
    | succ n ih =>
      intro vs forms henv
      refine .seq (.reads cdr_reads) fun _ => .seq (.reads isObjType_reads) fun _ => .ite ?_ .none
      apply Tidies.car.bind
      intro form
      apply (hev _ form env .top henv.tail).bind
      intro _
      apply (Tidies.reads cdr_reads).seq
      exact fun forms => ih _ forms henv.tail.tail
  apply Tidies.ite (tidy_value plain_imm.known)
  apply (Tidies.reads properListLength_reads).seq
  intro n
  cases n with
  | none => exact .raise
  | some n => exact .seq (hloop n vs forms henv) fun last => .bind .car fun form => tidy_tco .top henv.tail

omit hev in
theorem letrecPredefine_tidy {inner : Val} {sp : Nat} {formName : String} (n : Nat) (cur : Val) :
    Tidies c 0 vs (letrecPredefine c inner sp formName n cur) fun _ => [] := by
  induction n generalizing vs cur with
  | zero => exact .timeout
  | succ n ih =>
    refine .seq (.reads isObjType_reads) fun _ => .ite ?_ .none
    refine .seq (.reads car_reads) fun pair => .seq (.reads bindingOk_reads) fun _ =>
      .ite (Tidies.onErr_restore .raise) ?_
    have hrest : ∀ name, Tidies c 0 ([name] ++ vs) (do
        (mlEnvDefine c inner name mvUndef).onErr (mlGcRestore sp)
        let cur ← cdr cur
        letrecPredefine c inner sp formName n cur) fun _ => [] := by
      intro name
      apply (mlEnvDefine_tidy .top plain_imm.known).onErr_restore.seq
      intro _
      exact .seq (.reads cdr_reads) fun _ => ih _
    exact Tidies.car.bind hrest

theorem letBindLoop_tidy {inner initEnv : Val} {sp : Nat} {formName : String} (n : Nat) (cur : Val)
    (henv : initEnv.Known vs) :
    Tidies c 0 vs (letBindLoop c ev inner initEnv sp formName n cur) fun _ => [] := by
  induction n generalizing vs cur with
  | zero => exact .timeout
  | succ n ih =>
    refine .seq (.reads isObjType_reads) fun _ => .ite ?_ .none
    refine .seq (.reads car_reads) fun pair => .seq (.reads bindingOk_reads) fun _ =>
      .ite (Tidies.onErr_restore .raise) ?_
    have hrest : ∀ {ws : List Val} name v, name.Known ws → v.Known ws → initEnv.Known ws → Tidies c 0 ws (do
        let sp2 ← mlGcSavepoint
        (mlGcProtect c v).onErr (mlGcRestore sp)
        ((mlEnvDefine c inner name v).andThen (mlGcRestore sp2)).onErr (mlGcRestore sp)
        let cur ← cdr cur
        letBindLoop c ev inner initEnv sp formName n cur) fun _ => [] := by
      intro ws name v hname hv hinit
      apply Tidies.savepoint
      intro sp2
      apply (Tidies.mlGcProtect hv).onErr_restore.seq
      intro _
      apply (mlEnvDefine_tidy hname hv).andThen_restore.onErr_restore.seq
      intro _
      exact .seq (.reads cdr_reads) fun _ => ih _ hinit
    apply Tidies.car.bind
    intro name
    apply (Tidies.reads cdr_reads).seq
    intro rest
    apply Tidies.car.bind
    intro init
    apply (hev _ init initEnv .top henv.tail.tail).onErr_restore.bind
    intro v
    exact hrest name v Val.Known.top.tail.tail .top henv.tail.tail.tail

theorem handleLetFamily_tidy {starlike recursive : Bool} {formName : String} (henv : env.Known vs) :
    Tidies c 0 vs (handleLetFamily c ev args env starlike recursive formName) SfResult.vals := by
  apply (Tidies.reads properListLength_reads).seq
  intro n
  apply Tidies.ite .raise
  refine .seq (.reads car_reads) fun bindings => .seq (.reads cdr_reads) fun body => ?_
  apply (Tidies.reads properListLength_reads).seq
  intro n
  cases n with
  | none => exact .raise
  | some blen =>
    apply (mlGcAllocEnv_tidy henv).bind
    intro inner
    apply Tidies.savepoint
    intro sp
    apply (Tidies.mlGcProtect .top).seq
    intro _
    have hbody : ∀ initEnv, initEnv.Known ([inner] ++ vs) → Tidies c 0 ([inner] ++ vs) (do
        letBindLoop c ev inner initEnv sp formName (blen + 1) bindings
        (beginTco ev body inner).andThen (mlGcRestore sp)) SfResult.vals :=
      fun initEnv hinit => .seq (letBindLoop_tidy hev _ _ hinit) fun _ => (beginTco_tidy hev .top).andThen_restore
    have hinit : (if starlike then inner else if recursive then inner else env).Known ([inner] ++ vs) := by
      split
      · exact .top
      · split
        · exact .top
        · exact henv.tail
    exact .ite (.seq (letrecPredefine_tidy _ _) fun _ => hbody _ hinit) (hbody _ hinit)

theorem handleAndOr_tidy {isOr : Bool} (henv : env.Known vs) :
    Tidies c 0 vs (handleAndOr ev args env isOr) SfResult.vals := by
  have hloop : ∀ n vs args, env.Known vs → Tidies c 0 vs (andOrLoop ev env isOr n args) SfResult.vals := by
    intro n
    induction n with
    | zero => exact fun _ _ _ => .timeout
    | succ n ih =>
      intro vs args henv
      refine .seq (.reads cdr_reads) fun _ => .seq (.reads isObjType_reads) fun _ => ?_
      apply Tidies.ite
      · apply Tidies.car.bind
        intro form
        apply (hev _ form env .top henv.tail).bind
        intro v
        apply Tidies.ite (tidy_value .top)
        apply (Tidies.reads cdr_reads).seq
        exact fun args => ih _ args henv.tail.tail
      · exact .bind .car fun form => tidy_tco .top henv.tail
  apply Tidies.ite
  · cases isOr <;> exact tidy_value plain_imm.known
  · apply (Tidies.reads properListLength_reads).seq
    intro n
    cases n with
    | none => exact .raise
    | some n => exact hloop n vs args henv

theorem handleCond_tidy (henv : env.Known vs) : Tidies c 0 vs (handleCond c ev args env) SfResult.vals := by
  have hloop : ∀ n vs cur, env.Known vs → Tidies c 0 vs (condLoop c ev env n cur) SfResult.vals := by
    intro n
    induction n with
    | zero => exact fun _ _ _ => .timeout
    | succ n ih =>
      intro vs cur henv
      refine .seq (.reads isObjType_reads) fun _ => .ite ?_ (tidy_value plain_imm.known)
      refine .seq (.reads car_reads) fun clause => .seq (.reads isObjType_reads) fun _ => .ite .raise ?_
      apply Tidies.car.bind
      intro test
      apply (Tidies.reads cdr_reads).seq
      intro body
      apply Tidies.ite (beginTco_tidy hev henv.tail)
      apply (hev _ test env .top henv.tail).bind
      intro testV
      apply Tidies.ite (.ite (tidy_value .top) (beginTco_tidy hev henv.tail.tail))
      apply (Tidies.reads cdr_reads).seq
      exact fun cur => ih _ cur henv.tail.tail
  apply (Tidies.reads properListLength_reads).seq
  intro n
  cases n with
  | none => exact .raise
  | some n => exact hloop _ vs args henv

theorem dispatch_tidy {head rest : Val} (henv : env.Known vs) :
    Tidies c 0 vs (dispatch c ev head rest env) SfResult.vals := by
  unfold dispatch
  refine .ite handleQuote_tidy (.ite (handleIf_tidy hev henv) (.ite (handleDefine_tidy hev henv) ?_))
  refine .ite (handleSetBang_tidy hev henv) (.ite (handleLambda_tidy henv) (.ite (beginTco_tidy hev henv) ?_))
  refine .ite (handleLetFamily_tidy hev henv)
    (.ite (handleLetFamily_tidy hev henv) (.ite (handleLetFamily_tidy hev henv) ?_))
  refine .ite (handleAndOr_tidy hev henv) (.ite (handleAndOr_tidy hev henv) (.ite (handleCond_tidy hev henv) ?_))
  exact .pure (by simp [SfResult.vals])

/-! ## Eval loop -/

omit hev in
theorem finish_tidy {sp : Nat} (hv : v.Known vs) : Tidies c 0 vs (finish sp v) Iter.vals := by
  apply (Tidies.modify fun s hs => hs.restore sp).seq
  intro _
  apply Tidies.pure
  intro w hw
  rw [List.mem_singleton.1 hw]
  exact hv

omit hev in
theorem loopWith_tidy {sp : Nat} (hv : v.Known vs) (hw : w.Known vs) : Tidies c 0 vs (loopWith sp v w) Iter.vals := by
  apply (Tidies.modify fun s hs => hs.setSlot hv).seq
  intro _
  apply (Tidies.modify fun s hs => hs.setSlot hw).seq
  exact fun _ => .pure (by simp [Iter.vals])

theorem applyClosure_tidy {sp spProc : Nat} {proc : Val} (hargv : ∀ v ∈ argv, v.Known vs) :
    Tidies c 0 vs (applyClosure c ev sp spProc proc argv) Iter.vals := by
  apply (applyClosureBind_tidy hargv).andThen_unprotect.onErr_restore.bind
  intro newEnv
  apply (Tidies.reads closureFields_reads).seq
  intro cl
  refine .seq (.modify fun s hs => hs.of_eq rfl fun _ hv => hv) fun _ => ?_
  have hbody : Tidies c 0 ([newEnv] ++ vs)
      ((beginTco ev cl.body newEnv).andThen fun s => mlGcRestore spProc (popPending s))
      SfResult.vals :=
    (beginTco_tidy hev .top).andThen fun _ _ s hs => State.Ctx.restore (s := popPending s)
      (hs.of_eq rfl fun _ hv => hv) spProc
  apply hbody.onErr_restore.bind
  intro result
  cases result with
  | tco form env => exact loopWith_tidy (.head (by simp [SfResult.vals])) (.head (by simp [SfResult.vals]))
  | value v => exact finish_tidy (.head (by simp [SfResult.vals]))
  | notHandled => exact loopWith_tidy plain_imm.known plain_imm.known

omit hev in
theorem applyPrim_tidy {sp spProc : Nat} {proc : Val} (hargv : ∀ v ∈ argv, v.Known vs) :
    Tidies c 0 vs (applyPrim c sp spProc proc argv) Iter.vals := by
  apply (Tidies.reads primFields_reads).seq
  intro p
  apply Tidies.ite
  · exact Tidies.raise.onErr fun s hs => (hs.unprotect _).restore sp
  · apply ((callPrim_tidy hargv).andThen fun _ _ s hs => (hs.unprotect _).restore spProc).onErr_restore.bind
    exact fun v => finish_tidy .top

theorem evalCall_tidy {sp : Nat} {head rest : Val} (hhead : head.Known vs) (henv : env.Known vs) :
    Tidies c 0 vs (evalCall c ev sp head rest env) Iter.vals := by
  apply (hev _ head env hhead henv).onErr_restore.bind
  intro proc
  apply Tidies.savepoint
  intro spProc
  apply (Tidies.mlGcProtect .top).onErr_restore.seq
  intro _
  apply (evalArgList_tidy hev henv.tail).onErr_restore.bind
  intro argv
  have hargv : ∀ v ∈ argv, v.Known (argv ++ ([proc] ++ vs)) := fun v hv => .head hv
  have hcalled : Tidies c 0 (argv ++ ([proc] ++ vs)) (emit (.called argv)) fun _ => [] :=
    Triple.emit fun s hs _ => ⟨fun v hv => (hs.known (hargv v hv)).inRange, hs⟩
  apply hcalled.seq
  intro _
  apply (Tidies.reads isObjType_reads).seq
  intro _
  apply Tidies.ite (applyPrim_tidy hargv)
  apply (Tidies.reads isObjType_reads).seq
  intro _
  apply Tidies.ite (applyClosure_tidy hev hargv)
  exact .seq (.modify fun s hs => hs.unprotect _) fun _ => Tidies.raise.onErr_restore

theorem evalIter_tidy {sp : Nat} : Tidies c 0 vs (evalIter c ev sp) Iter.vals := by
  apply Tidies.gcProtectGet.bind
  intro form
  apply Tidies.gcProtectGet.bind
  intro env
  have hform : form.Known ([env] ++ ([form] ++ vs)) := Val.Known.top.tail
  cases form with
  | fix p => exact finish_tidy hform
  | imm i => exact finish_tidy hform
  | sym i => exact .bind (onUnbound_tidy mlEnvLookup_tidy).onErr_restore fun v => finish_tidy .top
  | obj a =>
    apply (Tidies.reads isObjType_reads).seq
    intro _
    apply Tidies.ite _ (finish_tidy hform)
    apply Tidies.car.bind
    intro head
    apply (Tidies.reads cdr_reads).seq
    intro rest
    have hcall : Tidies c 0 ([head] ++ ([env] ++ ([Val.obj a] ++ vs))) (evalCall c ev sp head rest env) Iter.vals :=
      evalCall_tidy hev .top Val.Known.top.tail
    apply Tidies.ite
    · apply (dispatch_tidy hev Val.Known.top.tail).onErr_restore.bind
      intro result
      cases result with
      | value v => exact finish_tidy (.head (by simp [SfResult.vals]))
      | tco f e => exact loopWith_tidy (.head (by simp [SfResult.vals])) (.head (by simp [SfResult.vals]))
      | notHandled => exact hcall
    · exact hcall
  | reserved w =>
    refine .seq (Triple.emit fun s hs _ => ⟨trivial, hs⟩) fun _ => ?_
    exact Tidies.raise.onErr_restore

theorem evalBody_tidy {form : Val} (turns : Nat) (hform : form.Known vs) (henv : env.Known vs) :
    Tidies c 0 vs (evalBody c ev turns form env) fun v => [v] := by
  have hloop : ∀ sp turns, Tidies c 0 vs (evalLoop c ev sp turns) fun v => [v] := by
    intro sp turns
    induction turns with
    | zero => exact .timeout
    | succ turns ih =>
      apply (evalIter_tidy hev).bind
      intro i
      cases i with
      | done v => exact .known .top
      | again => exact ih
  apply Tidies.savepoint
  intro sp
  apply (Tidies.mlGcProtect hform).seq
  intro _
  exact .seq (Tidies.mlGcProtect henv).onErr_restore fun _ => hloop sp turns

end Handlers

theorem mlEval_tidy (c : Config) (n : Nat) : EvTidy c (mlEval c n) := by
  induction n with
  | zero => exact fun _ _ _ _ _ => .timeout
  | succ n ih =>
    intro vs form env hform henv
    apply (Tidies.reads .gets).seq
    intro depth
    apply Tidies.ite .raise
    refine .seq (.modify fun s hs => hs.of_eq rfl fun _ hv => hv) fun _ => ?_
    exact (evalBody_tidy ih (n + 1) hform henv).andThen fun _ _ s hs => hs.of_eq rfl fun _ hv => hv

end Microlisp
