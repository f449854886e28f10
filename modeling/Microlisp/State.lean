import Microlisp.Heap
import Microlisp.Lib.Prog
/-!
# The interpreter state

`State` has the fields of `microlisp_state` that a call can change; `Config` has
those that nothing assigns after `microlisp_state_create`, and what the library
runs on: the allocator, the output stream, and when a collection is due.

An allocation's overflow check and its call of the allocator share one exit
(`MICROLISP_ERR_NOMEM`), so both are `mlRawAlloc`, asked for the exact size.
-/
namespace Microlisp

open Prog

/-- The symbol table: the interned names, in index order. -/
structure Symtab where
  entries : List Bytes
  capacity : Nat

/-- `ml_error`. The message is kept without its terminating NUL. -/
structure MlError where
  message : Bytes
  line : Nat
  column : Nat
deriving DecidableEq

structure State where
  heap : Heap
  gcLiveObjects : Nat
  gcThreshold : Nat
  gcStress : Bool
  gcProtect : List Val
  gcProtectCap : Nat
  gcMarklist : List Nat
  gcMarklistCap : Nat
  symtab : Symtab
  evalDepth : Nat
  printDepth : Nat
  equalDepth : Nat
  lastError : MlError
  /-- What has been written to `output`. -/
  output : Bytes
  /-- How many requests the allocator has had, and how many writes and flushes the
  output stream. -/
  allocs : Nat
  writes : Nat
  flushes : Nat
  /-- The frames that an `eval_body` holds in its local `new_env` alone, while it
  runs the leading forms of a closure's body. No code reads this field. -/
  pending : List Val
  /-- How many objects the last collection that ran to its end has kept. No code reads this field. -/
  gcKept : Option Nat

/-- What a run did that its end does not show. -/
inductive Event where
  /-- `gc_push_mark` put the object on the worklist. -/
  | pushed (a : Nat)
  /-- `gc_push_mark` could not grow the worklist. -/
  | noRoom
  /-- The objects have changed, and this is the heap now. -/
  | heap (h : Heap)
  /-- A sweep removed a pending frame. -/
  | lostFrame
  /-- `eval_body` took its unknown-tag branch. -/
  | unknownTag
  /-- A procedure was called with these arguments. -/
  | called (argv : List Val)
  /-- `ml_make_fix` was given this integer. -/
  | madeFix (x : Int)
  /-- An operation on `int64_t` whose exact result is this integer was carried out. -/
  | int64 (x : Int)
deriving DecidableEq

abbrev ML := Prog State Status Event

structure Config where
  /-- Does the allocator grant its `n`-th request, of `size` bytes? -/
  alloc : Nat → Nat → Bool
  /-- How many bytes the `n`-th write, of `len` bytes, takes. -/
  fwrite : Nat → Nat → Nat
  /-- Does the `n`-th flush succeed? -/
  fflush : Nat → Bool
  /-- Is a collection due at this allocation? -/
  collectDue : State → Bool
  maxReadDepth : Nat
  maxEvalDepth : Nat
  maxPrintDepth : Nat
  maxEqualDepth : Nat
  symQuote : Val
  symIf : Val
  symDefine : Val
  symLambda : Val
  symSetBang : Val
  symLet : Val
  symLetStar : Val
  symLetrec : Val
  symBegin : Val
  symAnd : Val
  symOr : Val
  symCond : Val
  symElse : Val
  toplevelEnv : Val

/-- The code's own schedule, `gc_stress` or a full heap. -/
def State.gcDue (s : State) : Bool := s.gcStress || decide (s.gcThreshold ≤ s.gcLiveObjects)

/-! ## A new state -/

/-- The names `intern_special_forms` interns, in its order. -/
def specialForms : List String :=
  ["quote", "if", "define", "lambda", "set!", "let", "let*", "letrec", "begin", "and", "or", "cond", "else"]

/-- What `microlisp_state_create` sets by default, with an allocator that grants every
request and a stream that takes every byte. The top-level frame is the first object. -/
def Config.created : Config where
  alloc := fun _ _ => true
  fwrite := fun _ len => len
  fflush := fun _ => true
  collectDue := State.gcDue
  maxReadDepth := 256
  maxEvalDepth := 1024
  maxPrintDepth := 1024
  maxEqualDepth := 1024
  symQuote := .sym 0
  symIf := .sym 1
  symDefine := .sym 2
  symLambda := .sym 3
  symSetBang := .sym 4
  symLet := .sym 5
  symLetStar := .sym 6
  symLetrec := .sym 7
  symBegin := .sym 8
  symAnd := .sym 9
  symOr := .sym 10
  symCond := .sym 11
  symElse := .sym 12
  toplevelEnv := .obj 1

/-- The state at that point of `microlisp_state_create`: the top-level frame is still
empty. -/
def State.created : State where
  heap := Heap.empty.alloc (.env mvNil [] 0)
  gcLiveObjects := 1
  gcThreshold := 4096
  gcStress := false
  gcProtect := []
  gcProtectCap := 0
  gcMarklist := []
  gcMarklistCap := 0
  symtab := ⟨specialForms.map ascii, 32⟩
  evalDepth := 0
  printDepth := 0
  equalDepth := 0
  lastError := ⟨[], 0, 0⟩
  output := []
  allocs := 15
  writes := 0
  flushes := 0
  pending := []
  gcKept := none

/-! ## Memory and errors -/

def mlRawAlloc (c : Config) (size : Nat) : ML Bool := do
  if size = 0 then
    pure false
  else
    let n ← gets State.allocs
    modify fun s => { s with allocs := s.allocs + 1 }
    pure (c.alloc n size)

/-- `ml_raw_alloc` where a refusal is returned as `MICROLISP_ERR_NOMEM`. -/
def rawAllocOrFail (c : Config) (size : Nat) : ML Unit := do
  if ← mlRawAlloc c size then pure () else fail .errNomem

/-- `vsnprintf` into `message[256]`. -/
def mlSetError (line column : Nat) (message : Bytes) (s : State) : State :=
  { s with lastError := ⟨message.take 255, line, column⟩ }

def mlClearError (s : State) : State := { s with lastError := ⟨[], 0, 0⟩ }

/-- Set the error, then return the status. -/
def raise {α : Type} (line column : Nat) (message : Bytes) (st : Status) : ML α := do
  modify (mlSetError line column message)
  fail st

/-- Decimal digits, as `%zu` and `%u` print them. -/
def decimal (n : Nat) : Bytes := (Nat.toDigits 10 n).map ch

/-! ## The protect stack -/

def mlGcProtect (c : Config) (v : Val) : ML Unit := do
  let count ← gets fun s => s.gcProtect.length
  let cap ← gets State.gcProtectCap
  if count = cap then
    let newCap := if cap = 0 then 32 else cap * 2
    rawAllocOrFail c (newCap * 8)
    modify fun s => { s with gcProtectCap := newCap }
  modify fun s => { s with gcProtect := s.gcProtect ++ [v] }

def mlGcUnprotect (n : Nat) (s : State) : State :=
  { s with gcProtect := s.gcProtect.take (s.gcProtect.length - n) }

def mlGcSavepoint : ML Nat := gets fun s => s.gcProtect.length

def mlGcRestore (saved : Nat) (s : State) : State := { s with gcProtect := s.gcProtect.take saved }

/-- `s->gc_protect[i] = v`. -/
def gcProtectSet (i : Nat) (v : Val) (s : State) : State := { s with gcProtect := s.gcProtect.set i v }

/-- `s->gc_protect[i]`. -/
def gcProtectGet (i : Nat) : ML Val := do
  match ← gets (fun s => s.gcProtect[i]?) with
  | some v => pure v
  | none => stuck

/-! ## Reading objects -/

/-- The object a handle points to. Reading through a handle whose object is no
longer in the heap is undefined. -/
def readObj (a : Nat) : ML Obj := do
  match ← gets (fun s => s.heap.get a) with
  | some o => pure o
  | none => stuck

/-- `ml_is_obj_type`. -/
def isObjType (p : Obj → Bool) (v : Val) : ML Bool :=
  match v with
  | .obj 0 => pure false
  | .obj a => do
    let o ← readObj a
    pure (p o)
  | _ => pure false

def mlIsPair (v : Val) : ML Bool := isObjType Obj.isPair v
def mlIsString (v : Val) : ML Bool := isObjType Obj.isString v
def mlIsClosure (v : Val) : ML Bool := isObjType Obj.isClosure v
def mlIsPrim (v : Val) : ML Bool := isObjType Obj.isPrim v
def mlIsEnv (v : Val) : ML Bool := isObjType Obj.isEnv v

def mlIsProcedure (v : Val) : ML Bool := do
  if ← mlIsClosure v then pure true else mlIsPrim v

/-- The object behind a cast, whatever it is; a value without one has none. -/
def asObj : Val → ML Obj
  | .obj a => readObj a
  | _ => stuck

/-- `ml_as_pair(v)->car`: the cast is unchecked, so on anything but a pair the
read is undefined. The same goes for the other fields below. -/
def car (v : Val) : ML Val := do
  match ← asObj v with
  | .pair a _ => pure a
  | _ => stuck

def cdr (v : Val) : ML Val := do
  match ← asObj v with
  | .pair _ d => pure d
  | _ => stuck

/-- `ml_as_string(v)->bytes`. -/
def stringBytes (v : Val) : ML Bytes := do
  match ← asObj v with
  | .string b => pure b
  | _ => stuck

/-- The fields of a closure. -/
structure Closure where
  env : Val
  params : Val
  body : Val
  variadic : Bool
  arityMin : UInt32

def closureFields (v : Val) : ML Closure := do
  match ← asObj v with
  | .closure e p b va n => pure ⟨e, p, b, va, n⟩
  | _ => stuck

/-- The fields of a primitive. -/
structure Primitive where
  name : String
  fn : PrimFn
  arityMin : UInt32
  arityMax : UInt32

def primFields (v : Val) : ML Primitive := do
  match ← asObj v with
  | .prim n f mn mx => pure ⟨n, f, mn, mx⟩
  | _ => stuck

/-- The fields of a frame. -/
structure Frame where
  parent : Val
  bindings : List (Val × Val)
  capacity : Nat

def envFields (v : Val) : ML Frame := do
  match ← asObj v with
  | .env p b k => pure ⟨p, b, k⟩
  | _ => stuck

/-- Record the heap as it is now. -/
def noteHeap : ML Unit := do
  let h ← gets State.heap
  emit (.heap h)

/-- Overwrite the object a handle points to. -/
def writeObj (v : Val) (o : Obj) : ML Unit :=
  match v with
  | .obj a => do
    modify fun s => { s with heap := s.heap.set a o }
    noteHeap
  | _ => stuck

/-- `ml_make_fix` at work, on record. -/
def makeFix (x : Int) : ML Val := do
  emit (.madeFix x)
  pure (mlMakeFix x)

/-- An operation on `int64_t` with this exact result, on record: undefined when the
result does not fit. -/
def int64Op (x : Int) : ML Int := do
  emit (.int64 x)
  match int64Checked x with
  | some r => pure r
  | none => stuck

/-- More steps than any list without a cycle has: a walk that takes more never
ends. -/
def walkBound : ML Nat := gets fun s => s.heap.next + 1

end Microlisp
