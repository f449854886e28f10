import Microlisp.Tables
/-!
# Printer (`printer.c`)

A sink takes chunks of bytes and threads its own data of type `β`, the `void *user`
of the source. The recursion of `print_value` is bounded by `max_print_depth`.
-/
namespace Microlisp

open Prog

/-- `ml_out_fn` and its `user`. -/
abbrev Sink (β : Type) := β → Bytes → ML β

section Sinks
variable {β : Type} (out : Sink β)

def emitTo (user : β) (bytes : Bytes) : ML β :=
  if bytes = [] then pure user else out user bytes

/-- `%lld`. -/
def decimalInt (v : Int) : Bytes := if v < 0 then ch '-' :: decimal v.natAbs else decimal v.natAbs

def emitInt (user : β) (v : Int) : ML β := emitTo out user (decimalInt v)

/-! ## Quoted strings -/

/-- `%02X` of a byte. -/
def hexUpper (d : UInt8) : UInt8 := if d < 10 then ch '0' + d else ch 'A' + (d - 10)

def needsEscape (b : UInt8) : Bool := b = ch '"' || b = ch '\\' || b < 0x20 || b = 0x7f

def escapeOf (b : UInt8) : Bytes :=
  if b = ch '"' then [ch '\\', ch '"']
  else if b = ch '\\' then [ch '\\', ch '\\']
  else if b = ch '\n' then [ch '\\', ch 'n']
  else if b = ch '\t' then [ch '\\', ch 't']
  else if b = ch '\r' then [ch '\\', ch 'r']
  else if b = 0 then [ch '\\', ch '0']
  else [ch '\\', ch 'x', hexUpper (b >>> 4), hexUpper (b &&& 0xf)]

/-- The loop over the bytes; `run` holds the safe ones not yet flushed. -/
def emitQuotedLoop : Bytes → Bytes → β → ML β
  | [], run, user => emitTo out user run
  | b :: bs, run, user =>
    if needsEscape b then do
      let user ← emitTo out user run
      let user ← emitTo out user (escapeOf b)
      emitQuotedLoop bs [] user
    else
      emitQuotedLoop bs (run ++ [b]) user

def emitStringQuoted (user : β) (bytes : Bytes) : ML β := do
  let user ← emitTo out user [ch '"']
  let user ← emitQuotedLoop out bytes [] user
  emitTo out user [ch '"']

/-! ## The walker -/

/-- The loop over the spine. -/
def printSpine (printValue : Val → β → ML β) : Nat → Val → β → ML β
  | 0, _, _ => timeout
  | n + 1, rest, user => do
    if ← mlIsPair rest then
      let user ← emitTo out user [ch ' ']
      let elem ← car rest
      let user ← printValue elem user
      let rest ← cdr rest
      printSpine printValue n rest user
    else if rest ≠ mvNil then
      let user ← emitTo out user [ch ' ', ch '.', ch ' ']
      printValue rest user
    else
      pure user

def printPairContents (printValue : Val → β → ML β) (v : Val) (user : β) : ML β := do
  let first ← car v
  let user ← printValue first user
  let rest ← cdr v
  let bound ← walkBound
  printSpine out printValue bound rest user

/-- The tests of `print_value_inner` on the object behind a handle. -/
def printObject (writeStyle : Bool) (printValue : Val → β → ML β) (v : Val) (user : β) : ML β := do
  if ← mlIsString v then
    let bytes ← stringBytes v
    if writeStyle then emitStringQuoted out user bytes else emitTo out user bytes
  else if ← mlIsPair v then
    let user ← emitTo out user [ch '(']
    let user ← printPairContents out printValue v user
    emitTo out user [ch ')']
  else if ← mlIsPrim v then
    let p ← primFields v
    emitTo out user ((ascii "#<procedure:" ++ ascii p.name ++ ascii ">").take 127)
  else if ← mlIsClosure v then
    emitTo out user (ascii "#<procedure>")
  else if ← mlIsEnv v then
    emitTo out user (ascii "#<environment>")
  else
    emitTo out user (ascii "#<unknown>")

def printValueInner (writeStyle : Bool) (printValue : Val → β → ML β) (v : Val) (user : β) : ML β := do
  match v with
  | .fix p => emitInt out user (mlFixInt p)
  | .imm .nil => emitTo out user [ch '(', ch ')']
  | .imm .tt => emitTo out user [ch '#', ch 't']
  | .imm .ff => emitTo out user [ch '#', ch 'f']
  | .imm .eof => emitTo out user (ascii "#<eof>")
  | .imm .undef => emitTo out user (ascii "#<undefined>")
  | .sym _ =>
    let name ← mlSymName v
    emitTo out user name
  | _ => printObject out writeStyle printValue v user

def leavePrint (s : State) : State := { s with printDepth := s.printDepth - 1 }

def printValue (c : Config) (writeStyle : Bool) : Nat → Val → β → ML β
  | 0, _, _ => timeout
  | n + 1, v, user => do
    let depth ← gets State.printDepth
    if depth ≥ c.maxPrintDepth then
      raise 0 0 (ascii "print recursion depth exceeded limit of " ++ decimal c.maxPrintDepth) .errPrintDepth
    else
      modify fun s => { s with printDepth := s.printDepth + 1 }
      (printValueInner out writeStyle (printValue c writeStyle n) v user).andThen leavePrint

def mlPrint (c : Config) (v : Val) (writeStyle : Bool) (user : β) : ML β := do
  let depth ← gets State.printDepth
  printValue out c writeStyle (c.maxPrintDepth - depth + 1) v user

end Sinks

/-! ## Printing to an allocated buffer -/

structure PrintBuf where
  bytes : Bytes
  cap : Nat

/-- `while (new_cap < need) new_cap *= 2`, with the overflow check of the doubling. -/
def growCap (need : Nat) : Nat → Nat → Option Nat
  | 0, _ => none
  | n + 1, newCap =>
    if newCap < need then
      if newCap * 2 < 2 ^ 64 then growCap need n (newCap * 2) else none
    else
      some newCap

def printBufSink (c : Config) : Sink PrintBuf := fun pb bytes => do
  if bytes.length > sizeMax - pb.bytes.length - 1 then
    fail .errNomem
  else
    let need := pb.bytes.length + bytes.length + 1
    if need > pb.cap then
      -- A size doubles at most 64 times before it overflows.
      match growCap need 65 (if pb.cap = 0 then 64 else pb.cap) with
      | none => fail .errNomem
      | some newCap =>
        rawAllocOrFail c newCap
        pure ⟨pb.bytes ++ bytes, newCap⟩
    else
      pure ⟨pb.bytes ++ bytes, pb.cap⟩

/-- The printed bytes; the terminating NUL, for which there is room, is left out. -/
def mlPrintToAlloc (c : Config) (v : Val) (writeStyle : Bool) : ML Bytes := do
  let pb ← mlPrint (printBufSink c) c v writeStyle ⟨[], 0⟩
  if pb.cap = 0 then
    rawAllocOrFail c 1
  pure pb.bytes

end Microlisp
