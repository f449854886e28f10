import Microlisp.Eval
/-!
# A reference semantics

What a form means, by ordinary recursion: `refEval` evaluates a form by evaluating its
parts, the one in tail position too, and returns the value of the whole. There is no
loop, no protect stack, no limit on the depth and no text of an error. Frames, memory
and primitives are the interpreter's. The count bounds the height of a derivation.
-/
namespace Microlisp

open Prog

section Nested
variable (c : Config) (eval : Val → Val → ML Val)

/-! ## Bodies -/

/-- Evaluate the forms of a list in order; the value is the last one's. -/
def refSequence (env : Val) : Nat → Val → ML Val
  | 0, _ => timeout
  | i + 1, forms => do
    if ← mlIsPair (← cdr forms) then
      let _ ← eval (← car forms) env
      let rest ← cdr forms
      refSequence env i rest
    else
      eval (← car forms) env

def refBegin (forms env : Val) : ML Val := do
  if forms = mvNil then
    pure mvUndef
  else
    match ← properListLength forms with
    | none => fail .errSyntax
    | some n => refSequence eval env n forms

/-! ## Special forms -/

def refQuote (args : Val) : ML Val := do
  if (← properListLength args) ≠ some 1 then fail .errSyntax else car args

def refIf (args env : Val) : ML Val := do
  let n ← properListLength args
  if n ≠ some 2 ∧ n ≠ some 3 then
    fail .errSyntax
  else
    let test ← car args
    let branches ← cdr args
    let consequent ← car branches
    let alternative ← if n = some 3 then do car (← cdr branches) else pure mvUndef
    let v ← eval test env
    if mlTruthy v then eval consequent env
    else if n = some 3 then eval alternative env
    else pure mvUndef

def refClosure (params body env : Val) : ML Val := do
  let (arityMin, variadic) ← closureArity params
  mlGcAllocClosure c env params body variadic arityMin

def refLambda (args env : Val) : ML Val := do
  let n ← properListLength args
  if n.all (· < 2) then
    fail .errSyntax
  else
    let params ← car args
    let body ← cdr args
    if !(← mlIsPair params) && decide (params ≠ mvNil) && !mlIsSym params then
      fail .errSyntax
    else
      refClosure c params body env

/-- Both shapes bind in the current frame. -/
def refDefine (args env : Val) : ML Val := do
  let n ← properListLength args
  if n.all (· < 2) then
    fail .errSyntax
  else
    let first ← car args
    let rest ← cdr args
    if mlIsSym first then
      if n ≠ some 2 then
        fail .errSyntax
      else
        let value ← eval (← car rest) env
        mlEnvDefine c env first value
        pure mvUndef
    else if ← mlIsPair first then
      let name ← car first
      if !mlIsSym name then
        fail .errSyntax
      else
        let params ← cdr first
        let value ← refClosure c params rest env
        mlEnvDefine c env name value
        pure mvUndef
    else
      fail .errSyntax

/-- The innermost binding is the one that changes. -/
def refSet (args env : Val) : ML Val := do
  if (← properListLength args) ≠ some 2 then
    fail .errSyntax
  else
    let name ← car args
    if !mlIsSym name then
      fail .errSyntax
    else
      let value ← eval (← car (← cdr args)) env
      mlEnvSet env name value
      pure mvUndef

/-- Bind every name of a `letrec` to `MV_UNDEF`. -/
def refPredefine (inner : Val) : Nat → Val → ML Unit
  | 0, _ => timeout
  | i + 1, bindings => do
    if ← mlIsPair bindings then
      let binding ← car bindings
      if !(← bindingOk binding) then
        fail .errSyntax
      else
        let name ← car binding
        mlEnvDefine c inner name mvUndef
        let rest ← cdr bindings
        refPredefine inner i rest
    else
      pure ()

/-- Evaluate each initial value in `initEnv` and bind it in `inner`, in order. -/
def refBindings (inner initEnv : Val) : Nat → Val → ML Unit
  | 0, _ => timeout
  | i + 1, bindings => do
    if ← mlIsPair bindings then
      let binding ← car bindings
      if !(← bindingOk binding) then
        fail .errSyntax
      else
        let name ← car binding
        let init ← car (← cdr binding)
        let v ← eval init initEnv
        mlEnvDefine c inner name v
        let rest ← cdr bindings
        refBindings inner initEnv i rest
    else
      pure ()

/-- `let`, `let*` and `letrec`: one fresh frame for all the bindings. -/
def refLet (args env : Val) (starlike recursive : Bool) : ML Val := do
  let n ← properListLength args
  if n.all (· < 2) then
    fail .errSyntax
  else
    let bindings ← car args
    let body ← cdr args
    match ← properListLength bindings with
    | none => fail .errSyntax
    | some count =>
      let inner ← mlGcAllocEnv c env
      if recursive then
        refPredefine c inner (count + 1) bindings
      refBindings c eval inner (if starlike then inner else if recursive then inner else env) (count + 1) bindings
      refBegin eval body inner

/-- Evaluate operands up to the one that decides. -/
def refAndOrLoop (env : Val) (isOr : Bool) : Nat → Val → ML Val
  | 0, _ => timeout
  | i + 1, args => do
    if ← mlIsPair (← cdr args) then
      let v ← eval (← car args) env
      if (if isOr then mlTruthy v else !mlTruthy v) then
        pure v
      else
        let rest ← cdr args
        refAndOrLoop env isOr i rest
    else
      eval (← car args) env

def refAndOr (args env : Val) (isOr : Bool) : ML Val := do
  if args = mvNil then
    pure (if isOr then mvFalse else mvTrue)
  else
    match ← properListLength args with
    | none => fail .errSyntax
    | some n => refAndOrLoop eval env isOr n args

/-- The body of the first clause whose test is not false; a clause without a body gives
the value of its test. -/
def refCondLoop (env : Val) : Nat → Val → ML Val
  | 0, _ => timeout
  | i + 1, clauses => do
    if ← mlIsPair clauses then
      let clause ← car clauses
      if !(← mlIsPair clause) then
        fail .errSyntax
      else
        let test ← car clause
        let body ← cdr clause
        if test = c.symElse then
          refBegin eval body env
        else
          let v ← eval test env
          if mlTruthy v then
            if body = mvNil then pure v else refBegin eval body env
          else
            let rest ← cdr clauses
            refCondLoop env i rest
    else
      pure mvUndef

def refCond (args env : Val) : ML Val := do
  match ← properListLength args with
  | none => fail .errSyntax
  | some n => refCondLoop c eval env (n + 1) args

/-! ## Calls -/

/-- The values of the operands, left to right. -/
def refArgs (env : Val) : Nat → Val → ML (List Val)
  | 0, _ => pure []
  | i + 1, args => do
    let v ← eval (← car args) env
    let rest ← cdr args
    let vs ← refArgs env i rest
    pure (v :: vs)

def refOperands (args env : Val) : ML (List Val) := do
  match ← properListLength args with
  | none => fail .errSyntax
  | some n => refArgs eval env n args

/-- Bind the arguments to the parameters; returns what follows the parameters. -/
def refParams (env : Val) : List Val → Val → ML Val
  | [], params => pure params
  | arg :: argv, params => do
    let name ← car params
    mlEnvDefine c env name arg
    let rest ← cdr params
    refParams env argv rest

/-- The frame of a call. -/
def refBind (cl : Closure) (argv : List Val) : ML Val := do
  let arity := cl.arityMin.toNat
  if cl.variadic && decide (argv.length < arity) then
    fail .errArity
  else if !cl.variadic && decide (argv.length ≠ arity) then
    fail .errArity
  else
    let env ← mlGcAllocEnv c cl.env
    let rest ← refParams c env (argv.take arity) cl.params
    if cl.variadic then
      if !mlIsSym rest then
        fail .errSyntax
      else
        let restList ← (argv.drop arity).foldrM (mlGcAllocPair c) mvNil
        mlEnvDefine c env rest restList
    pure env

def refApply (proc : Val) (argv : List Val) : ML Val := do
  if ← mlIsPrim proc then
    let p ← primFields proc
    if argv.length < p.arityMin.toNat || argv.length > p.arityMax.toNat then
      fail .errArity
    else
      callPrim c p.fn argv
  else if ← mlIsClosure proc then
    let cl ← closureFields proc
    let env ← refBind c cl argv
    refBegin eval cl.body env
  else
    fail .errType

/-- The head first, then the operands. -/
def refCall (head rest env : Val) : ML Val := do
  let proc ← eval head env
  let argv ← refOperands eval rest env
  refApply c eval proc argv

/-! ## Forms -/

def refPair (head rest env : Val) : ML Val :=
  if head = c.symQuote then refQuote rest
  else if head = c.symIf then refIf eval rest env
  else if head = c.symDefine then refDefine c eval rest env
  else if head = c.symSetBang then refSet eval rest env
  else if head = c.symLambda then refLambda c rest env
  else if head = c.symBegin then refBegin eval rest env
  else if head = c.symLet then refLet c eval rest env false false
  else if head = c.symLetStar then refLet c eval rest env true false
  else if head = c.symLetrec then refLet c eval rest env true true
  else if head = c.symAnd then refAndOr eval rest env false
  else if head = c.symOr then refAndOr eval rest env true
  else if head = c.symCond then refCond c eval rest env
  else refCall c eval head rest env

def refForm (form env : Val) : ML Val :=
  match form with
  | .fix _ => pure form
  | .imm _ => pure form
  | .sym _ => mlEnvLookup env form
  | .obj _ => do
    if ← mlIsPair form then
      let head ← car form
      let rest ← cdr form
      if mlIsSym head then refPair c eval head rest env else refCall c eval head rest env
    else
      pure form
  | .reserved _ => fail .errType

end Nested

def refEval (c : Config) : Nat → Val → Val → ML Val
  | 0, _, _ => timeout
  | n + 1, form, env => refForm c (refEval c n) form env

end Microlisp
