import Microlisp.Primitives
/-!
# Evaluator (`eval.c`)

`eval_body`'s loop runs `evalIter`, one turn of the loop, until it is done; `ev` is
the nested `ml_eval` that a turn calls. `mlEval`'s count bounds the nesting and the
turns of each loop.
-/
namespace Microlisp

open Prog

/-! ## List helpers -/

/-- The length of a proper list; nothing when the list is improper. -/
def properListLength (v : Val) : ML (Option Nat) := do
  let bound ← walkBound
  let (n, v) ← walkList bound v 0
  pure (if v ≠ mvNil then none else some n)

section Nested
variable (c : Config) (ev : Val → Val → ML Val)

/-- `cur` runs over the arguments, `argv` holds the values pushed so far. -/
def evalArgLoop (env : Val) : Nat → Val → List Val → ML (List Val)
  | 0, _, argv => pure argv
  | i + 1, cur, argv => do
    let elem ← car cur
    let v ← (ev elem env).onErr (mlGcUnprotect argv.length)
    (mlGcProtect c v).onErr (mlGcUnprotect argv.length)
    let cur ← cdr cur
    evalArgLoop env i cur (argv ++ [v])

/-- The values are left on the protect stack. -/
def evalArgList (args env : Val) : ML (List Val) := do
  match ← properListLength args with
  | none => raise 0 0 (ascii "argument list is not a proper list") .errSyntax
  | some argc =>
    if argc = 0 then
      pure []
    else
      rawAllocOrFail c (argc * 8)
      evalArgLoop c ev env argc args []

/-! ## Closures -/

/-- The loop of `build_list`, from `argv[start + i - 1]` down to `argv[start]`; `sp` is
the slot that holds the list so far. -/
def buildListLoop (argv : List Val) (start sp : Nat) : Nat → Val → ML Val
  | 0, head => pure head
  | i + 1, head => do
    let elem ← argvGet argv (start + i)
    (mlGcProtect c elem).onErr (mlGcRestore sp)
    let cell ← ((mlGcAllocPair c elem head).andThen (mlGcUnprotect 1)).onErr (mlGcRestore sp)
    modify (gcProtectSet sp cell)
    buildListLoop argv start sp i cell

def buildList (argv : List Val) (start stop : Nat) : ML Val := do
  let sp ← mlGcSavepoint
  mlGcProtect c mvNil
  let head ← buildListLoop c argv start sp (stop - start) mvNil
  modify (mlGcRestore sp)
  pure head

/-- Counts in a `uint32_t`. -/
def closureArityLoop : Nat → Val → UInt32 → ML (UInt32 × Bool)
  | 0, _, _ => timeout
  | bound + 1, cur, n => do
    if ← mlIsPair cur then
      let param ← car cur
      if !mlIsSym param then
        raise 0 0 (ascii "lambda parameter must be a symbol") .errSyntax
      else
        let cur ← cdr cur
        closureArityLoop bound cur (n + 1)
    else if cur = mvNil then
      pure (n, false)
    else if mlIsSym cur then
      pure (n, true)
    else
      raise 0 0 (ascii "lambda parameter list is malformed") .errSyntax

def closureArity (params : Val) : ML (UInt32 × Bool) := do
  let bound ← walkBound
  closureArityLoop bound params 0

def makeClosure (params body env : Val) : ML Val := do
  let (arityMin, variadic) ← closureArity params
  let sp ← mlGcSavepoint
  (do mlGcProtect c params
      mlGcProtect c body
      mlGcProtect c env).onErr (mlGcRestore sp)
  (mlGcAllocClosure c env params body variadic arityMin).andThen (mlGcRestore sp)

/-- Bind `argv[i]`, `argv[i + 1]`, ... to the next parameters; returns what follows
them. -/
def bindParams (env : Val) (argv : List Val) (sp : Nat) : Nat → Nat → Val → ML Val
  | 0, _, cur => pure cur
  | n + 1, i, cur => do
    let name ← car cur
    let arg ← argvGet argv i
    (mlEnvDefine c env name arg).onErr (mlGcRestore sp)
    let cur ← cdr cur
    bindParams env argv sp n (i + 1) cur

def applyClosureBind (closure : Val) (argv : List Val) : ML Val := do
  let cl ← closureFields closure
  let argc := argv.length
  if cl.variadic && decide (argc < cl.arityMin.toNat) then
    raise 0 0 (ascii "expected at least " ++ decimal cl.arityMin.toNat ++ ascii " arguments, got " ++ decimal argc)
      .errArity
  else if !cl.variadic && decide (argc ≠ cl.arityMin.toNat) then
    raise 0 0 (ascii "expected " ++ decimal cl.arityMin.toNat ++ ascii " arguments, got " ++ decimal argc) .errArity
  else
    let env ← mlGcAllocEnv c cl.env
    let sp ← mlGcSavepoint
    mlGcProtect c env
    let cl ← closureFields closure
    let cur ← bindParams c env argv sp cl.arityMin.toNat 0 cl.params
    if cl.variadic then
      if !mlIsSym cur then
        (raise 0 0 (ascii "malformed variadic parameter list") .errSyntax).onErr (mlGcRestore sp)
      else
        let restList ← (buildList c argv cl.arityMin.toNat argc).onErr (mlGcRestore sp)
        (mlEnvDefine c env cur restList).onErr (mlGcRestore sp)
    modify (mlGcRestore sp)
    pure env

/-! ## Special forms -/

/-- `sf_result`, with the value of `SF_VALUE` and the form and environment of
`SF_TCO`. -/
inductive SfResult where
  | notHandled
  | value (v : Val)
  | tco (form env : Val)

def handleQuote (args : Val) : ML SfResult := do
  if (← properListLength args) ≠ some 1 then
    raise 0 0 (ascii "quote requires exactly one argument") .errSyntax
  else
    let v ← car args
    pure (.value v)

def handleIf (args env : Val) : ML SfResult := do
  let n ← properListLength args
  if n ≠ some 2 ∧ n ≠ some 3 then
    raise 0 0 (ascii "if requires 2 or 3 arguments") .errSyntax
  else
    let testForm ← car args
    let rest ← cdr args
    let thenForm ← car rest
    let elseForm ← if n = some 3 then do car (← cdr rest) else pure mvUndef
    let testV ← ev testForm env
    if mlTruthy testV then
      pure (.tco thenForm env)
    else if n = some 3 then
      pure (.tco elseForm env)
    else
      pure (.value mvUndef)

/-- Protect `value` while it is bound. -/
def defineProtected (env name value : Val) : ML SfResult := do
  let sp ← mlGcSavepoint
  mlGcProtect c value
  (mlEnvDefine c env name value).andThen (mlGcRestore sp)
  pure (.value mvUndef)

def handleDefine (args env : Val) : ML SfResult := do
  let n ← properListLength args
  if n.all (· < 2) then
    raise 0 0 (ascii "define requires a name and a body") .errSyntax
  else
    let first ← car args
    let rest ← cdr args
    if mlIsSym first then
      if n ≠ some 2 then
        raise 0 0 (ascii "define with a name takes exactly one value expression") .errSyntax
      else
        let value ← ev (← car rest) env
        defineProtected c env first value
    else if ← mlIsPair first then
      let name ← car first
      if !mlIsSym name then
        raise 0 0 (ascii "define: name must be a symbol") .errSyntax
      else
        let params ← cdr first
        let cl ← makeClosure c params rest env
        defineProtected c env name cl
    else
      raise 0 0 (ascii "define: first argument must be a symbol or list") .errSyntax

/-- Report an unbound variable by name, in place of the bare status. -/
def onUnbound {α : Type} (message : Bytes) (name : Val) (m : ML α) : ML α :=
  m.onError fun e s =>
    if e = .errUnbound then mlSetError 0 0 (message ++ formatName (s.symtab.name name) ++ ascii "`") s else s

def handleSetBang (args env : Val) : ML SfResult := do
  if (← properListLength args) ≠ some 2 then
    raise 0 0 (ascii "set! requires a name and a value") .errSyntax
  else
    let name ← car args
    if !mlIsSym name then
      raise 0 0 (ascii "set!: target must be a symbol") .errSyntax
    else
      let value ← ev (← car (← cdr args)) env
      let sp ← mlGcSavepoint
      mlGcProtect c value
      onUnbound (ascii "set!: unbound variable `") name ((mlEnvSet env name value).andThen (mlGcRestore sp))
      pure (.value mvUndef)

def handleLambda (args env : Val) : ML SfResult := do
  let n ← properListLength args
  if n.all (· < 2) then
    raise 0 0 (ascii "lambda requires a parameter list and a body") .errSyntax
  else
    let params ← car args
    let body ← cdr args
    if !(← mlIsPair params) && decide (params ≠ mvNil) && !mlIsSym params then
      raise 0 0 (ascii "lambda: parameter spec must be a list or symbol") .errSyntax
    else
      let cl ← makeClosure c params body env
      pure (.value cl)

/-- Evaluate every form but the last; the bound is the number of forms. -/
def beginLoop (env : Val) : Nat → Val → ML Val
  | 0, _ => timeout
  | i + 1, forms => do
    if ← mlIsPair (← cdr forms) then
      let _ ← ev (← car forms) env
      let forms ← cdr forms
      beginLoop env i forms
    else
      pure forms

def beginTco (forms env : Val) : ML SfResult := do
  if forms = mvNil then
    pure (.value mvUndef)
  else
    match ← properListLength forms with
    | none => raise 0 0 (ascii "body must be a proper list") .errSyntax
    | some formCount =>
      let last ← beginLoop ev env formCount forms
      let form ← car last
      pure (.tco form env)

def handleBegin (args env : Val) : ML SfResult := beginTco ev args env

/-- Does a binding look like `(name expr)`? -/
def bindingOk (pair : Val) : ML Bool := do
  if !(← mlIsPair pair) then
    pure false
  else if !(← mlIsPair (← cdr pair)) then
    pure false
  else if (← cdr (← cdr pair)) ≠ mvNil then
    pure false
  else
    let name ← car pair
    pure (mlIsSym name)

def raiseBinding {α : Type} (formName : String) : ML α :=
  raise 0 0 (ascii formName ++ ascii ": bindings must look like (name expr)") .errSyntax

/-- `letrec`'s first pass: bind every name to `MV_UNDEF`. -/
def letrecPredefine (inner : Val) (sp : Nat) (formName : String) : Nat → Val → ML Unit
  | 0, _ => timeout
  | i + 1, cur => do
    if ← mlIsPair cur then
      let pair ← car cur
      if !(← bindingOk pair) then
        (raiseBinding formName).onErr (mlGcRestore sp)
      else
        let name ← car pair
        (mlEnvDefine c inner name mvUndef).onErr (mlGcRestore sp)
        let cur ← cdr cur
        letrecPredefine inner sp formName i cur
    else
      pure ()

/-- Evaluate and bind, in order; the bound is one more than the number of bindings. -/
def letBindLoop (inner initEnv : Val) (sp : Nat) (formName : String) : Nat → Val → ML Unit
  | 0, _ => timeout
  | i + 1, cur => do
    if ← mlIsPair cur then
      let pair ← car cur
      if !(← bindingOk pair) then
        (raiseBinding formName).onErr (mlGcRestore sp)
      else
        let name ← car pair
        let init ← car (← cdr pair)
        let v ← (ev init initEnv).onErr (mlGcRestore sp)
        let sp2 ← mlGcSavepoint
        (mlGcProtect c v).onErr (mlGcRestore sp)
        ((mlEnvDefine c inner name v).andThen (mlGcRestore sp2)).onErr (mlGcRestore sp)
        let cur ← cdr cur
        letBindLoop inner initEnv sp formName i cur
    else
      pure ()

def handleLetFamily (args env : Val) (starlike recursive : Bool) (formName : String) : ML SfResult := do
  let n ← properListLength args
  if n.all (· < 2) then
    raise 0 0 (ascii formName ++ ascii " requires a bindings list and a body") .errSyntax
  else
    let bindings ← car args
    let body ← cdr args
    match ← properListLength bindings with
    | none => raise 0 0 (ascii formName ++ ascii ": bindings must be a proper list") .errSyntax
    | some blen =>
      let inner ← mlGcAllocEnv c env
      let sp ← mlGcSavepoint
      mlGcProtect c inner
      if recursive then
        letrecPredefine c inner sp formName (blen + 1) bindings
      let initEnv := if starlike then inner else if recursive then inner else env
      letBindLoop c ev inner initEnv sp formName (blen + 1) bindings
      (beginTco ev body inner).andThen (mlGcRestore sp)

/-- Evaluate every operand but the last, up to the one that decides; the bound is the
number of operands. -/
def andOrLoop (env : Val) (isOr : Bool) : Nat → Val → ML SfResult
  | 0, _ => timeout
  | i + 1, args => do
    if ← mlIsPair (← cdr args) then
      let v ← ev (← car args) env
      if (if isOr then mlTruthy v else !mlTruthy v) then
        pure (.value v)
      else
        let args ← cdr args
        andOrLoop env isOr i args
    else
      let form ← car args
      pure (.tco form env)

def handleAndOr (args env : Val) (isOr : Bool) : ML SfResult := do
  if args = mvNil then
    pure (.value (if isOr then mvFalse else mvTrue))
  else
    match ← properListLength args with
    | none =>
      raise 0 0 ((if isOr then ascii "or" else ascii "and") ++ ascii ": argument list must be a proper list")
        .errSyntax
    | some argCount => andOrLoop ev env isOr argCount args

/-- The bound is one more than the number of clauses. -/
def condLoop (env : Val) : Nat → Val → ML SfResult
  | 0, _ => timeout
  | i + 1, cur => do
    if ← mlIsPair cur then
      let clause ← car cur
      if !(← mlIsPair clause) then
        raise 0 0 (ascii "cond: clause must be a list") .errSyntax
      else
        let test ← car clause
        let body ← cdr clause
        if test = c.symElse then
          beginTco ev body env
        else
          let testV ← ev test env
          if mlTruthy testV then
            if body = mvNil then pure (.value testV) else beginTco ev body env
          else
            let cur ← cdr cur
            condLoop env i cur
    else
      pure (.value mvUndef)

def handleCond (args env : Val) : ML SfResult := do
  match ← properListLength args with
  | none => raise 0 0 (ascii "cond: clause list must be a proper list") .errSyntax
  | some clauseCount => condLoop c ev env (clauseCount + 1) args

/-- Special-form dispatch by interned symbol identity. -/
def dispatch (head rest env : Val) : ML SfResult :=
  if head = c.symQuote then handleQuote rest
  else if head = c.symIf then handleIf ev rest env
  else if head = c.symDefine then handleDefine c ev rest env
  else if head = c.symSetBang then handleSetBang c ev rest env
  else if head = c.symLambda then handleLambda c rest env
  else if head = c.symBegin then handleBegin ev rest env
  else if head = c.symLet then handleLetFamily c ev rest env false false "let"
  else if head = c.symLetStar then handleLetFamily c ev rest env true false "let*"
  else if head = c.symLetrec then handleLetFamily c ev rest env true true "letrec"
  else if head = c.symAnd then handleAndOr ev rest env false
  else if head = c.symOr then handleAndOr ev rest env true
  else if head = c.symCond then handleCond c ev rest env
  else pure .notHandled

/-! ## Eval loop -/

/-- How a turn of the loop ends: the value is returned, or the two slots hold the next
form and environment. -/
inductive Iter where
  | done (v : Val)
  | again

/-- Return `v` from `eval_body`. -/
def finish (sp : Nat) (v : Val) : ML Iter := do
  modify (mlGcRestore sp)
  pure (.done v)

/-- Loop with a new form and environment. -/
def loopWith (sp : Nat) (form env : Val) : ML Iter := do
  modify (gcProtectSet sp form)
  modify (gcProtectSet (sp + 1) env)
  pure .again

def pushPending (env : Val) (s : State) : State := { s with pending := env :: s.pending }
def popPending (s : State) : State := { s with pending := s.pending.tail }

/-- Apply a closure: bind its parameters, run the leading forms of its body, loop with
the last one. `new_env` is in no root while those forms run. -/
def applyClosure (sp spProc : Nat) (proc : Val) (argv : List Val) : ML Iter := do
  let newEnv ← ((applyClosureBind c proc argv).andThen (mlGcUnprotect argv.length)).onErr (mlGcRestore sp)
  let cl ← closureFields proc
  modify (pushPending newEnv)
  let result ← ((beginTco ev cl.body newEnv).andThen (fun s => mlGcRestore spProc (popPending s))).onErr
    (mlGcRestore sp)
  match result with
  | .tco newForm newEnv2 => loopWith sp newForm newEnv2
  | .value v => finish sp v
  | .notHandled => loopWith sp mvUndef mvUndef

/-- Apply a primitive. -/
def applyPrim (sp spProc : Nat) (proc : Val) (argv : List Val) : ML Iter := do
  let p ← primFields proc
  if argv.length < p.arityMin.toNat || argv.length > p.arityMax.toNat then
    (raise 0 0 (ascii p.name ++ ascii ": wrong number of arguments (got " ++ decimal argv.length ++ ascii ")")
      .errArity).onErr (fun s => mlGcRestore sp (mlGcUnprotect argv.length s))
  else
    let value ← ((callPrim c p.fn argv).andThen
      (fun s => mlGcRestore spProc (mlGcUnprotect argv.length s))).onErr (mlGcRestore sp)
    finish sp value

/-- A procedure call. -/
def evalCall (sp : Nat) (head rest env : Val) : ML Iter := do
  let proc ← (ev head env).onErr (mlGcRestore sp)
  let spProc ← mlGcSavepoint
  (mlGcProtect c proc).onErr (mlGcRestore sp)
  let argv ← (evalArgList c ev rest env).onErr (mlGcRestore sp)
  emit (.called argv)
  if ← mlIsPrim proc then
    applyPrim c sp spProc proc argv
  else if ← mlIsClosure proc then
    applyClosure c ev sp spProc proc argv
  else
    modify (mlGcUnprotect argv.length)
    (raise 0 0 (ascii "called value is not a procedure") .errType).onErr (mlGcRestore sp)

/-- A form that is a pair. -/
def evalPair (sp : Nat) (form env : Val) : ML Iter := do
  let head ← car form
  let rest ← cdr form
  let result ← if mlIsSym head then (dispatch c ev head rest env).onErr (mlGcRestore sp) else pure .notHandled
  match result with
  | .value v => finish sp v
  | .tco newForm newEnv => loopWith sp newForm newEnv
  | .notHandled => evalCall c ev sp head rest env

/-- One turn of the loop of `eval_body`; the slots at `sp` and `sp + 1` hold the form
and the environment. -/
def evalIter (sp : Nat) : ML Iter := do
  let form ← gcProtectGet sp
  let env ← gcProtectGet (sp + 1)
  match form with
  | .fix _ => finish sp form
  | .imm _ => finish sp form
  | .sym _ =>
    let v ← (onUnbound (ascii "unbound variable `") form (mlEnvLookup env form)).onErr (mlGcRestore sp)
    finish sp v
  | .obj _ =>
    if ← mlIsPair form then
      evalPair c ev sp form env
    else
      finish sp form
  | .reserved _ =>
    emit .unknownTag
    (raise 0 0 (ascii "evaluator saw a value with unknown tag") .errType).onErr (mlGcRestore sp)

def evalLoop (sp : Nat) : Nat → ML Val
  | 0 => timeout
  | turns + 1 => do
    match ← evalIter c ev sp with
    | .done v => pure v
    | .again => evalLoop sp turns

def evalBody (turns : Nat) (form env : Val) : ML Val := do
  let sp ← mlGcSavepoint
  mlGcProtect c form
  (mlGcProtect c env).onErr (mlGcRestore sp)
  evalLoop c ev sp turns

end Nested

def leaveEval (s : State) : State := { s with evalDepth := s.evalDepth - 1 }

def mlEval (c : Config) : Nat → Val → Val → ML Val
  | 0, _, _ => timeout
  | n + 1, form, env => do
    let depth ← gets State.evalDepth
    if depth ≥ c.maxEvalDepth then
      raise 0 0 (ascii "eval recursion depth exceeded limit of " ++ decimal c.maxEvalDepth
        ++ ascii " (non-tail-recursive code)") .errEvalDepth
    else
      modify fun s => { s with evalDepth := s.evalDepth + 1 }
      (evalBody c (mlEval c n) (n + 1) form env).andThen leaveEval

end Microlisp
