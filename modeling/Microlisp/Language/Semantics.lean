import Microlisp.Printer
import Microlisp.Datum
import Mathlib.Data.List.Basic
/-!
# The language

What programs mean, without a machine. A value is a tree of its own, and the frames of variables
are the only thing that changes. There are no addresses, no symbol table, no allocator and no
collector, and no limit on the depth of evaluations, of the printer or of `equal?`.

What is left open (`unspecified`) is what only addresses decide, which is whether two pairs,
strings or procedures are the same one, and procedures with more parameters than are counted.
-/
namespace Microlisp.Language

open Prog

/-! ## Values -/

/-- A closure has the names of its parameters, the name for the arguments after them, if it takes
any, the forms of its body, and its environment: frames by their numbers, the innermost first. -/
inductive Value where
  | undef
  | nil
  | fix (x : Int)
  | bool (b : Bool)
  | sym (name : Bytes)
  | str (bytes : Bytes)
  | pair (a d : Value)
  | closure (params : List Bytes) (rest : Option Bytes) (body : List Datum) (env : List Nat)
  | prim (name : String) (fn : PrimFn) (arityMin arityMax : UInt32)
deriving DecidableEq

namespace Value

/-- The value of a quoted datum. -/
def ofDatum : Datum → Value
  | .nil => nil
  | .fix x => fix x
  | .bool b => bool b
  | .sym name => sym name
  | .str bytes => str bytes
  | .pair a d => pair (ofDatum a) (ofDatum d)

def truthy : Value → Bool
  | bool false => false
  | _ => true

def list (vs : List Value) : Value := vs.foldr pair nil

/-- The length of a proper list. -/
def length? : Value → Option Nat
  | nil => some 0
  | pair _ d => d.length?.map (· + 1)
  | _ => none

/-- Are they the same object? -/
def same : Value → Value → Option Bool
  | pair .., pair .. | str _, str _ | closure .., closure .. | prim .., prim .. => none
  | v, w => some (decide (v = w))

/-- Strings are compared by their bytes. -/
def eqv : Value → Value → Option Bool
  | str bytes, str bytes' => some (decide (bytes = bytes'))
  | pair .., pair .. => none
  | v, w => same v w

def equal : Value → Value → Option Bool
  | pair a d, pair a' d' => (equal a a').bind fun e => if e then equal d d' else some false
  | v, w => eqv v w

/-! ### Text -/

/-- One byte of a string in write style. -/
def quoteByte (b : UInt8) : Bytes := if needsEscape b then escapeOf b else [b]

/-- What is no pair, in write style or in display style. -/
def atomText (style : Bool) : Value → Bytes
  | undef => ascii "#<undefined>"
  | fix x => decimalInt x
  | bool b => [ch '#', ch (if b then 't' else 'f')]
  | sym name => name
  | str bytes => if style then ch '"' :: bytes.flatMap quoteByte ++ [ch '"'] else bytes
  | closure .. => ascii "#<procedure>"
  | prim name .. => (ascii "#<procedure:" ++ ascii name ++ ascii ">").take 127
  | _ => [ch '(', ch ')']

mutual

def text (style : Bool) : Value → Bytes
  | pair a d => ch '(' :: (a.text style ++ d.textRest style ++ [ch ')'])
  | v => v.atomText style

/-- The rest of a list, after one of its elements. -/
def textRest (style : Bool) : Value → Bytes
  | nil => []
  | pair a d => ch ' ' :: (a.text style ++ d.textRest style)
  | v => ch ' ' :: ch '.' :: ch ' ' :: v.atomText style

end

end Value

/-! ## Frames and output -/

abbrev Bindings := List (Bytes × Value)

/-- The frames that have been made, in order, and what has been written. -/
structure World where
  frames : List Bindings
  output : Bytes

abbrev Sem := Prog World Status Empty

def unspecified {α : Type} : Sem α := stuck

/-- What may be left open. -/
def settle {α : Type} : Option α → Sem α
  | some a => pure a
  | none => unspecified

def bindName (name : Bytes) (v : Value) : Bindings → Bindings
  | [] => [(name, v)]
  | b :: bs => if b.1 = name then (name, v) :: bs else b :: bindName name v bs

def World.vars (w : World) (k : Nat) : Bindings := (w.frames[k]?).getD []

def World.bind (name : Bytes) (v : Value) (k : Nat) (w : World) : World :=
  { w with frames := w.frames.modify k (bindName name v) }

/-- Bind the name in the innermost frame. -/
def define (env : List Nat) (name : Bytes) (v : Value) : Sem Unit :=
  match env with
  | [] => unspecified
  | k :: _ => modify (World.bind name v k)

def newFrame : Sem Nat := do
  let k ← gets fun w => w.frames.length
  modify fun w => { w with frames := w.frames ++ [[]] }
  pure k

/-- What the innermost frame says that binds the name. -/
def lookup (name : Bytes) : List Nat → Sem Value
  | [] => fail .errUnbound
  | k :: env => do
    match ← gets fun w => (w.vars k).find? (fun b => b.1 = name) with
    | some b => pure b.2
    | none => lookup name env

/-- Change the innermost binding. -/
def assign (name : Bytes) (v : Value) : List Nat → Sem Unit
  | [] => fail .errUnbound
  | k :: env => do
    if ← gets fun w => (w.vars k).any (fun b => b.1 = name) then
      modify (World.bind name v k)
    else
      assign name v env

/-! ## Primitives -/

def num : Value → Sem Int
  | .fix x => pure x
  | _ => fail .errType

def fixnum (x : Int) : Sem Int := if fitsFixnum x then pure x else fail .errOverflow

/-- Each partial result has to be a fixnum. -/
def foldNum (op : Int → Int → Int) : List Value → Int → Sem Int
  | [], acc => pure acc
  | v :: vs, acc => do
    let x ← num v
    let acc ← fixnum (op acc x)
    foldNum op vs acc

def nonzero (v : Value) : Sem Int := do
  let x ← num v
  if x = 0 then fail .errDivZero else pure x

def divNum : List Value → Int → Sem Int
  | [], acc => pure acc
  | v :: vs, acc => do
    let x ← nonzero v
    let acc ← fixnum (acc.tdiv x)
    divNum vs acc

/-- The rest of the operands is not looked at once one of them decides. -/
def chain (op : CmpOp) : List Value → Int → Sem Value
  | [], _ => pure (.bool true)
  | v :: vs, prev => do
    let x ← num v
    if op.holds prev x then chain op vs x else pure (.bool false)

def compare (op : CmpOp) : List Value → Sem Value
  | v :: vs => do
    let x ← num v
    chain op vs x
  | [] => unspecified

def write (bytes : Bytes) : Sem Value := do
  modify fun w => { w with output := w.output ++ bytes }
  pure .undef

def Value.isNil : Value → Bool
  | .nil => true
  | _ => false

def Value.isSym : Value → Bool
  | .sym _ => true
  | _ => false

def Value.isStr : Value → Bool
  | .str _ => true
  | _ => false

def Value.isBool : Value → Bool
  | .bool _ => true
  | _ => false

def Value.isNum : Value → Bool
  | .fix _ => true
  | _ => false

def Value.isPair : Value → Bool
  | .pair .. => true
  | _ => false

def Value.isClosure : Value → Bool
  | .closure .. => true
  | _ => false

def Value.isPrim : Value → Bool
  | .prim .. => true
  | _ => false

def Value.isProcedure (v : Value) : Bool := v.isClosure || v.isPrim

def test (p : Value → Bool) : List Value → Sem Value
  | [v] => pure (.bool (p v))
  | _ => unspecified

/-- What a primitive does with as many arguments as it takes. -/
def prim : PrimFn → List Value → Sem Value
  | .add, vs => do
    let x ← foldNum (· + ·) vs 0
    pure (.fix x)
  | .mul, vs => do
    let x ← foldNum (· * ·) vs 1
    pure (.fix x)
  | .sub, [v] => do
    let x ← num v
    let x ← fixnum (-x)
    pure (.fix x)
  | .sub, v :: vs => do
    let first ← num v
    let x ← foldNum (· - ·) vs first
    pure (.fix x)
  | .div, [v] => do
    let x ← nonzero v
    pure (.fix (Int.tdiv 1 x))
  | .div, v :: vs => do
    let first ← num v
    let x ← divNum vs first
    pure (.fix x)
  | .quotient, [v, v'] => do
    let x ← num v
    let y ← nonzero v'
    let q ← fixnum (x.tdiv y)
    pure (.fix q)
  | .remainder, [v, v'] => do
    let x ← num v
    let y ← nonzero v'
    pure (.fix (x.tmod y))
  | .modulo, [v, v'] => do
    let x ← num v
    let y ← nonzero v'
    pure (.fix (x.fmod y))
  | .numEq, vs => compare .eq vs
  | .numLt, vs => compare .lt vs
  | .numGt, vs => compare .gt vs
  | .numLe, vs => compare .le vs
  | .numGe, vs => compare .ge vs
  | .cons, [a, d] => pure (.pair a d)
  | .car, [.pair a _] => pure a
  | .car, [_] => fail .errType
  | .cdr, [.pair _ d] => pure d
  | .cdr, [_] => fail .errType
  | .list, vs => pure (.list vs)
  | .length, [v] =>
    match v.length? with
    | some n => do
      let x ← fixnum n
      pure (.fix x)
    | none => fail .errType
  | .nullP, vs => test Value.isNil vs
  | .pairP, vs => test Value.isPair vs
  | .numberP, vs => test Value.isNum vs
  | .symbolP, vs => test Value.isSym vs
  | .stringP, vs => test Value.isStr vs
  | .procedureP, vs => test Value.isProcedure vs
  | .booleanP, vs => test Value.isBool vs
  | .not, vs => test (fun v => !v.truthy) vs
  | .eqP, [v, v'] => do
    let e ← settle (v.same v')
    pure (.bool e)
  | .eqvP, [v, v'] => do
    let e ← settle (v.eqv v')
    pure (.bool e)
  | .equalP, [v, v'] => do
    let e ← settle (v.equal v')
    pure (.bool e)
  | .display, [v] => write (v.text false)
  | .write, [v] => write (v.text true)
  | .newline, [] => write [ch '\n']
  | .error, _ => fail .errUser
  | _, _ => unspecified

/-! ## Forms -/

end Microlisp.Language

namespace Microlisp

/-- The elements of a proper list. -/
def Datum.elems : Datum → Option (List Datum)
  | .nil => some []
  | .pair a d => d.elems.map (a :: ·)
  | _ => none

/-- The names of a parameter list, and the name for the arguments after them. -/
def Datum.params : Datum → Option (List Bytes × Option Bytes)
  | .nil => some ([], none)
  | .sym name => some ([], some name)
  | .pair (.sym name) d => d.params.map fun p => (name :: p.1, p.2)
  | _ => none

/-- `(name expr)`. -/
def Datum.binding : Datum → Option (Bytes × Datum)
  | .pair (.sym name) (.pair init .nil) => some (name, init)
  | _ => none

end Microlisp

namespace Microlisp.Language

open Prog

section Nested
variable (eval : Datum → List Nat → Sem Value)

/-- The forms in order; the value is the last one's. -/
def sequence (env : List Nat) : List Datum → Sem Value
  | [] => pure .undef
  | [e] => eval e env
  | e :: es => do
    let _ ← eval e env
    sequence env es

/-- The forms of a list, which must be a proper one. -/
def body (env : List Nat) (forms : Datum) : Sem Value :=
  match forms.elems with
  | some es => sequence eval env es
  | none => fail .errSyntax

/-- A procedure made in `env`. -/
def makeProcedure (params : Datum) (body : List Datum) (env : List Nat) : Sem Value :=
  match params.params with
  | none => fail .errSyntax
  | some (names, rest) => if names.length < 2 ^ 32 then pure (.closure names rest body env) else unspecified

/-! ### Special forms -/

def quote : List Datum → Sem Value
  | [d] => pure (.ofDatum d)
  | _ => fail .errSyntax

def ifForm (env : List Nat) : List Datum → Sem Value
  | [t, e] => do
    let v ← eval t env
    if v.truthy then eval e env else pure .undef
  | [t, e, e'] => do
    let v ← eval t env
    if v.truthy then eval e env else eval e' env
  | _ => fail .errSyntax

def defineForm (env : List Nat) : List Datum → Sem Value
  | [.sym name, e] => do
    let v ← eval e env
    define env name v
    pure .undef
  | .pair (.sym name) params :: e :: es => do
    let v ← makeProcedure params (e :: es) env
    define env name v
    pure .undef
  | _ => fail .errSyntax

def setForm (env : List Nat) : List Datum → Sem Value
  | [.sym name, e] => do
    let v ← eval e env
    assign name v env
    pure .undef
  | _ => fail .errSyntax

def lambdaForm (env : List Nat) : List Datum → Sem Value
  | params :: e :: es => makeProcedure params (e :: es) env
  | _ => fail .errSyntax

/-- Bind the names of a `letrec` before their values are known. -/
def predefine (inner : List Nat) : List Datum → Sem Unit
  | [] => pure ()
  | d :: ds =>
    match d.binding with
    | some (name, _) => do
      define inner name .undef
      predefine inner ds
    | none => fail .errSyntax

/-- Evaluate each value in `initEnv` and bind it in `inner`. -/
def bindEach (inner initEnv : List Nat) : List Datum → Sem Unit
  | [] => pure ()
  | d :: ds =>
    match d.binding with
    | some (name, init) => do
      let v ← eval init initEnv
      define inner name v
      bindEach inner initEnv ds
    | none => fail .errSyntax

def letForm (starlike recursive : Bool) (env : List Nat) : List Datum → Sem Value
  | bindings :: e :: es =>
    match bindings.elems with
    | none => fail .errSyntax
    | some ds => do
      let k ← newFrame
      if recursive then
        predefine (k :: env) ds
      bindEach eval (k :: env) (if starlike then k :: env else if recursive then k :: env else env) ds
      sequence eval (k :: env) (e :: es)
  | _ => fail .errSyntax

def andOr (isOr : Bool) (env : List Nat) : List Datum → Sem Value
  | [] => pure (.bool (!isOr))
  | [e] => eval e env
  | e :: es => do
    let v ← eval e env
    if v.truthy == isOr then pure v else andOr isOr env es

def cond (env : List Nat) : List Datum → Sem Value
  | [] => pure .undef
  | .pair test forms :: clauses =>
    if test = .sym (ascii "else") then
      body eval env forms
    else do
      let v ← eval test env
      if v.truthy then
        if forms = .nil then pure v else body eval env forms
      else
        cond env clauses
  | _ :: _ => fail .errSyntax

/-! ### Calls -/

def operands (env : List Nat) : List Datum → Sem (List Value)
  | [] => pure []
  | e :: es => do
    let v ← eval e env
    let vs ← operands env es
    pure (v :: vs)

/-- Bind the names in order; a name that comes twice is bound to the later value. -/
def bindNames (env : List Nat) : List (Bytes × Value) → Sem Unit
  | [] => pure ()
  | (name, v) :: rest => do
    define env name v
    bindNames env rest

/-- The frame of a call. -/
def callFrame (params : List Bytes) (rest : Option Bytes) (env : List Nat) (vs : List Value) : Sem Nat :=
  if vs.length < params.length ∨ rest = none ∧ vs.length ≠ params.length then
    fail .errArity
  else do
    let k ← newFrame
    bindNames (k :: env) (params.zip vs)
    match rest with
    | some name =>
      define (k :: env) name (.list (vs.drop params.length))
      pure k
    | none => pure k

def apply (f : Value) (vs : List Value) : Sem Value :=
  match f with
  | .prim _ fn arityMin arityMax =>
    if vs.length < arityMin.toNat ∨ vs.length > arityMax.toNat then fail .errArity else prim fn vs
  | .closure params rest forms env => do
    let k ← callFrame params rest env vs
    sequence eval (k :: env) forms
  | _ => fail .errType

/-- The head is evaluated first. -/
def call (head rest : Datum) (env : List Nat) : Sem Value := do
  let f ← eval head env
  match rest.elems with
  | none => fail .errSyntax
  | some es => do
    let vs ← operands eval env es
    apply eval f vs

/-! ### The rules -/

/-- A special form takes a proper list of operands. -/
def special (rest : Datum) (rule : List Datum → Sem Value) : Sem Value :=
  match rest.elems with
  | some es => rule es
  | none => fail .errSyntax

/-- A form that a symbol heads. -/
def symbolForm (name : Bytes) (rest : Datum) (env : List Nat) : Sem Value :=
  if name = ascii "quote" then special rest quote
  else if name = ascii "if" then special rest (ifForm eval env)
  else if name = ascii "define" then special rest (defineForm eval env)
  else if name = ascii "set!" then special rest (setForm eval env)
  else if name = ascii "lambda" then special rest (lambdaForm env)
  else if name = ascii "begin" then special rest (sequence eval env)
  else if name = ascii "let" then special rest (letForm eval false false env)
  else if name = ascii "let*" then special rest (letForm eval true false env)
  else if name = ascii "letrec" then special rest (letForm eval true true env)
  else if name = ascii "and" then special rest (andOr eval false env)
  else if name = ascii "or" then special rest (andOr eval true env)
  else if name = ascii "cond" then special rest (cond eval env)
  else call eval (.sym name) rest env

def form (e : Datum) (env : List Nat) : Sem Value :=
  match e with
  | .sym name => lookup name env
  | .pair (.sym name) rest => symbolForm eval name rest env
  | .pair head rest => call eval head rest env
  | e => pure (.ofDatum e)

end Nested

/-- The value of a form in an environment; the count bounds the height of a derivation. -/
def eval : Nat → Datum → List Nat → Sem Value
  | 0, _, _ => timeout
  | n + 1, e, env => form (eval n) e env

/-! ## Programs -/

/-- The top-level frame. -/
def toplevel : List Nat := [0]

/-- The world that a program starts in. -/
def World.start : World := ⟨[kPrimitives.map fun p => (ascii p.1, .prim p.1 p.2.1 p.2.2.1 p.2.2.2)], []⟩

/-- The forms in order, then the error that ends the text, if one does. -/
def runForms (n : Nat) (fault : Option Status) : List Datum → Value → Sem Value
  | [], last =>
    match fault with
    | some e => fail e
    | none => pure last
  | e :: es, _ => do
    let v ← eval n e toplevel
    runForms n fault es v

/-- What a program answers: the text of its last value, if there is one. -/
def answer (n : Nat) (fault : Option Status) (forms : List Datum) (wantBytes : Bool) : Sem (Option Bytes) := do
  let v ← runForms n fault forms .undef
  if v = .undef ∨ wantBytes = false then pure none else pure (some (v.text true))

end Microlisp.Language
