import Microlisp.Printer
/-!
# Primitives (`primitives.c`)

Every primitive gets its argument vector as a list. Reading past its end is
undefined; `k_primitives` gives the arity each primitive is called with.
-/
namespace Microlisp

open Prog

/-- `argv[i]`. -/
def argvGet (argv : List Val) (i : Nat) : ML Val :=
  match argv[i]? with
  | some v => pure v
  | none => stuck

def expectFix (v : Val) (what : String) : ML Int :=
  match v with
  | .fix p => pure (mlFixInt p)
  | _ => raise 0 0 (ascii what ++ ascii ": expected number") .errType

def fitsFixnum (v : Int) : Bool := mFixMin ≤ v && v ≤ mFixMax

/-! ## Arithmetic -/

def raiseOverflow {α : Type} (what : String) : ML α :=
  raise 0 0 (ascii what ++ ascii ": integer overflow") .errOverflow

def raiseDivZero {α : Type} (what : String) : ML α :=
  raise 0 0 (ascii what ++ ascii ": division by zero") .errDivZero

/-- The loop of `prim_add`, `prim_sub` and `prim_mul`: one checked operation for each
argument. -/
def foldFix (op : Int → Int → Int) (what : String) : List Val → Int → ML Int
  | [], acc => pure acc
  | a :: argv, acc => do
    let v ← expectFix a what
    match int64Checked (op acc v) with
    | some r => if fitsFixnum r then foldFix op what argv r else raiseOverflow what
    | none => raiseOverflow what

def primAdd (argv : List Val) : ML Val := do
  let acc ← foldFix (· + ·) "+" argv 0
  makeFix acc

def primSub (argv : List Val) : ML Val := do
  if argv.length = 1 then
    let v ← expectFix (← argvGet argv 0) "-"
    let r ← int64Op (-v)
    if fitsFixnum r then makeFix r else raiseOverflow "-"
  else
    let first ← expectFix (← argvGet argv 0) "-"
    let acc ← foldFix (· - ·) "-" (argv.drop 1) first
    makeFix acc

def primMul (argv : List Val) : ML Val := do
  let acc ← foldFix (· * ·) "*" argv 1
  makeFix acc

/-- `a / b` on `int64_t`, undefined when the divisor is zero or the quotient does not
fit. -/
def int64Div (a b : Int) : ML Int := if b = 0 then stuck else int64Op (a.tdiv b)

/-- `a % b` on `int64_t`, undefined where `a / b` is. -/
def int64Rem (a b : Int) : ML Int := do
  let _ ← int64Div a b
  pure (a.tmod b)

def divLoop : List Val → Int → ML Int
  | [], acc => pure acc
  | a :: argv, acc => do
    let v ← expectFix a "/"
    if v = 0 then
      raiseDivZero "/"
    else
      let acc ← int64Div acc v
      if fitsFixnum acc then divLoop argv acc else raiseOverflow "/"

def primDiv (argv : List Val) : ML Val := do
  if argv.length = 1 then
    let v ← expectFix (← argvGet argv 0) "/"
    if v = 0 then
      raiseDivZero "/"
    else
      makeFix (if v = 1 then 1 else if v = -1 then -1 else 0)
  else
    let first ← expectFix (← argvGet argv 0) "/"
    let acc ← divLoop (argv.drop 1) first
    makeFix acc

def primQuotient (argv : List Val) : ML Val := do
  let a ← expectFix (← argvGet argv 0) "quotient"
  let b ← expectFix (← argvGet argv 1) "quotient"
  if b = 0 then
    raiseDivZero "quotient"
  else
    let result ← int64Div a b
    if fitsFixnum result then makeFix result else raiseOverflow "quotient"

def primRemainder (argv : List Val) : ML Val := do
  let a ← expectFix (← argvGet argv 0) "remainder"
  let b ← expectFix (← argvGet argv 1) "remainder"
  if b = 0 then
    raiseDivZero "remainder"
  else if a = int64Min ∧ b = -1 then
    makeFix 0
  else
    let r ← int64Rem a b
    makeFix r

def primModulo (argv : List Val) : ML Val := do
  let a ← expectFix (← argvGet argv 0) "modulo"
  let b ← expectFix (← argvGet argv 1) "modulo"
  if b = 0 then
    raiseDivZero "modulo"
  else
    let r ← int64Rem a b
    let r ← if r ≠ 0 ∧ (r < 0) ≠ (b < 0) then int64Op (r + b) else pure r
    makeFix r

/-! ## Comparison -/

inductive CmpOp where
  | eq
  | lt
  | gt
  | le
  | ge

def CmpOp.holds : CmpOp → Int → Int → Bool
  | .eq, prev, cur => prev = cur
  | .lt, prev, cur => prev < cur
  | .gt, prev, cur => prev > cur
  | .le, prev, cur => prev ≤ cur
  | .ge, prev, cur => prev ≥ cur

def cmpLoop (op : CmpOp) (name : String) : List Val → Int → ML Val
  | [], _ => pure mvTrue
  | a :: argv, prev => do
    let cur ← expectFix a name
    if op.holds prev cur then cmpLoop op name argv cur else pure mvFalse

def cmpChain (op : CmpOp) (name : String) (argv : List Val) : ML Val := do
  let prev ← expectFix (← argvGet argv 0) name
  cmpLoop op name (argv.drop 1) prev

def primNumEq : List Val → ML Val := cmpChain .eq "="
def primNumLt : List Val → ML Val := cmpChain .lt "<"
def primNumGt : List Val → ML Val := cmpChain .gt ">"
def primNumLe : List Val → ML Val := cmpChain .le "<="
def primNumGe : List Val → ML Val := cmpChain .ge ">="

/-! ## Pairs and lists -/

def primCons (c : Config) (argv : List Val) : ML Val := do
  let a ← argvGet argv 0
  let d ← argvGet argv 1
  mlGcAllocPair c a d

def primCar (argv : List Val) : ML Val := do
  let v ← argvGet argv 0
  if ← mlIsPair v then car v else raise 0 0 (ascii "car: argument is not a pair") .errType

def primCdr (argv : List Val) : ML Val := do
  let v ← argvGet argv 0
  if ← mlIsPair v then cdr v else raise 0 0 (ascii "cdr: argument is not a pair") .errType

/-- The loop of `prim_list`, from the last argument to the first; `sp` is the slot
that holds the list so far. -/
def primListLoop (c : Config) (argv : List Val) (sp : Nat) : Nat → Val → ML Val
  | 0, head => pure head
  | i + 1, head => do
    let elem ← argvGet argv i
    let cell ← (mlGcAllocPair c elem head).onErr (mlGcRestore sp)
    modify (gcProtectSet sp cell)
    primListLoop c argv sp i cell

def primList (c : Config) (argv : List Val) : ML Val := do
  let sp ← mlGcSavepoint
  mlGcProtect c mvNil
  let head ← primListLoop c argv sp argv.length mvNil
  modify (mlGcRestore sp)
  pure head

/-- The pairs of a spine and what ends it. -/
def walkList : Nat → Val → Nat → ML (Nat × Val)
  | 0, _, _ => timeout
  | bound + 1, v, n => do
    if ← mlIsPair v then
      let v ← cdr v
      walkList bound v (n + 1)
    else
      pure (n, v)

def primLength (argv : List Val) : ML Val := do
  let v ← argvGet argv 0
  let bound ← walkBound
  let (n, v) ← walkList bound v 0
  if v ≠ mvNil then
    raise 0 0 (ascii "length: argument is not a proper list") .errType
  else if (n : Int) > mFixMax then
    raise 0 0 (ascii "length: result exceeds fixnum range") .errOverflow
  else
    makeFix n

/-! ## Predicates -/

/-- `DEFINE_PREDICATE`. -/
def definePredicate (test : Val → ML Bool) (argv : List Val) : ML Val := do
  let v ← argvGet argv 0
  let b ← test v
  pure (mlMakeBool b)

def primNullP : List Val → ML Val := definePredicate fun v => pure (v == mvNil)
def primPairP : List Val → ML Val := definePredicate mlIsPair
def primNumberP : List Val → ML Val := definePredicate fun v => pure (mlIsFix v)
def primSymbolP : List Val → ML Val := definePredicate fun v => pure (mlIsSym v)
def primStringP : List Val → ML Val := definePredicate mlIsString
def primProcedureP : List Val → ML Val := definePredicate mlIsProcedure
def primBooleanP : List Val → ML Val := definePredicate fun v => pure (mlIsBool v)
def primNot : List Val → ML Val := definePredicate fun v => pure !(mlTruthy v)

def primEqP (argv : List Val) : ML Val := do
  let a ← argvGet argv 0
  let b ← argvGet argv 1
  pure (mlMakeBool (mlValueEq a b))

def primEqvP (argv : List Val) : ML Val := do
  let a ← argvGet argv 0
  let b ← argvGet argv 1
  let e ← mlValueEqv a b
  pure (mlMakeBool e)

def primEqualP (c : Config) (argv : List Val) : ML Val := do
  let a ← argvGet argv 0
  let b ← argvGet argv 1
  let e ← mlValueEqual c a b
  pure (mlMakeBool e)

/-! ## Output -/

def stateOutputSink (c : Config) : Sink Unit := fun _ bytes => do
  let n ← gets State.writes
  let taken := min (c.fwrite n bytes.length) bytes.length
  modify fun s => { s with output := s.output ++ bytes.take taken, writes := s.writes + 1 }
  if taken ≠ bytes.length then fail .errIo else pure ()

def stateOutputFlush (c : Config) : ML Unit := do
  let n ← gets State.flushes
  modify fun s => { s with flushes := s.flushes + 1 }
  if c.fflush n then pure () else fail .errIo

/-- `prim_display` and `prim_write`. -/
def printAndFlush (c : Config) (writeStyle : Bool) (argv : List Val) : ML Val := do
  let v ← argvGet argv 0
  mlPrint (stateOutputSink c) c v writeStyle ()
  stateOutputFlush c
  pure mvUndef

def primDisplay (c : Config) : List Val → ML Val := printAndFlush c false
def primWrite (c : Config) : List Val → ML Val := printAndFlush c true

def primNewline (c : Config) (_ : List Val) : ML Val := do
  stateOutputSink c () [ch '\n']
  stateOutputFlush c
  pure mvUndef

def primError (argv : List Val) : ML Val :=
  match argv with
  | [] => raise 0 0 (ascii "error") .errUser
  | v :: _ => do
    if ← mlIsString v then
      let bytes ← stringBytes v
      raise 0 0 bytes .errUser
    else if mlIsSym v then
      let name ← mlSymName v
      raise 0 0 (formatName name) .errUser
    else
      raise 0 0 (ascii "error") .errUser

/-! ## Registry -/

def uint32Max : UInt32 := 0xffffffff

/-- `k_primitives`: name, function, least and greatest number of arguments. -/
def kPrimitives : List (String × PrimFn × UInt32 × UInt32) :=
  [("+", .add, 0, uint32Max), ("-", .sub, 1, uint32Max), ("*", .mul, 0, uint32Max), ("/", .div, 1, uint32Max),
   ("quotient", .quotient, 2, 2), ("remainder", .remainder, 2, 2), ("modulo", .modulo, 2, 2),
   ("=", .numEq, 2, uint32Max), ("<", .numLt, 2, uint32Max), (">", .numGt, 2, uint32Max),
   ("<=", .numLe, 2, uint32Max), (">=", .numGe, 2, uint32Max),
   ("cons", .cons, 2, 2), ("car", .car, 1, 1), ("cdr", .cdr, 1, 1), ("list", .list, 0, uint32Max),
   ("length", .length, 1, 1),
   ("null?", .nullP, 1, 1), ("pair?", .pairP, 1, 1), ("number?", .numberP, 1, 1), ("symbol?", .symbolP, 1, 1),
   ("string?", .stringP, 1, 1), ("procedure?", .procedureP, 1, 1), ("boolean?", .booleanP, 1, 1),
   ("eq?", .eqP, 2, 2), ("eqv?", .eqvP, 2, 2), ("equal?", .equalP, 2, 2), ("not", .not, 1, 1),
   ("display", .display, 1, 1), ("write", .write, 1, 1), ("newline", .newline, 0, 0),
   ("error", .error, 0, uint32Max)]

/-- The loop of `ml_primitives_install`. -/
def installLoop (c : Config) (env : Val) : List (String × PrimFn × UInt32 × UInt32) → ML Unit
  | [] => pure ()
  | (name, fn, arityMin, arityMax) :: rest => do
    let prim ← mlGcAllocPrimitive c name fn arityMin arityMax
    let sp ← mlGcSavepoint
    mlGcProtect c prim
    let sym ← (mlSymIntern c (ascii name)).onErr (mlGcRestore sp)
    (mlEnvDefine c env sym prim).andThen (mlGcRestore sp)
    installLoop c env rest

def mlPrimitivesInstall (c : Config) (env : Val) : ML Unit := installLoop c env kPrimitives

/-- `p->fn(s, argc, argv, &value)`. -/
def callPrim (c : Config) : PrimFn → List Val → ML Val
  | .add => primAdd
  | .sub => primSub
  | .mul => primMul
  | .div => primDiv
  | .quotient => primQuotient
  | .remainder => primRemainder
  | .modulo => primModulo
  | .numEq => primNumEq
  | .numLt => primNumLt
  | .numGt => primNumGt
  | .numLe => primNumLe
  | .numGe => primNumGe
  | .cons => primCons c
  | .car => primCar
  | .cdr => primCdr
  | .list => primList c
  | .length => primLength
  | .nullP => primNullP
  | .pairP => primPairP
  | .numberP => primNumberP
  | .symbolP => primSymbolP
  | .stringP => primStringP
  | .procedureP => primProcedureP
  | .booleanP => primBooleanP
  | .eqP => primEqP
  | .eqvP => primEqvP
  | .equalP => primEqualP c
  | .not => primNot
  | .display => primDisplay c
  | .write => primWrite c
  | .newline => primNewline c
  | .error => primError

end Microlisp
