import Mathlib.Algebra.Ring.Int.Defs
import Mathlib.Algebra.Ring.Nat
import Mathlib.Data.List.Nodup
/-!
# Values, heap objects and statuses

`mvalue` is a 64-bit word whose low three bits are a tag. `Val` has a constructor
for each tag the interpreter uses, with the payload at the width the word leaves
it, and one for words with a reserved tag. Byte strings are lists of bytes.
-/
namespace Microlisp

abbrev Bytes := List UInt8

/-- The bytes of an ASCII literal. -/
def ascii (s : String) : Bytes := s.toList.map (fun c => UInt8.ofNat c.toNat)

/-- The byte of an ASCII character. -/
def ch (c : Char) : UInt8 := UInt8.ofNat c.toNat

/-- `microlisp_status`, less `MICROLISP_OK`: a call that returns OK is a run that
returns. -/
inductive Status where
  | errInvalidArg
  | errNomem
  | errReadSyntax
  | errReadTruncated
  | errReadDepth
  | errUnbound
  | errType
  | errArity
  | errDivZero
  | errOverflow
  | errUser
  | errIo
  | errSyntax
  | errEvalDepth
  | errPrintDepth
  | errEqualDepth
deriving DecidableEq, Repr

/-! ## Values -/

/-- The immediates `MV_NIL`, `MV_TRUE`, `MV_FALSE`, `MV_EOF` and `MV_UNDEF`. -/
inductive Imm where
  | nil
  | tt
  | ff
  | eof
  | undef
deriving DecidableEq, Repr

/-- `obj a` is the heap object at address `a`; address 0 is `NULL`. -/
inductive Val where
  | obj (a : Nat)
  | fix (p : BitVec 61)
  | imm (i : Imm)
  | sym (i : UInt32)
  | reserved (w : Nat)
deriving DecidableEq, Repr

abbrev mvNil : Val := .imm .nil
abbrev mvTrue : Val := .imm .tt
abbrev mvFalse : Val := .imm .ff
abbrev mvEof : Val := .imm .eof
abbrev mvUndef : Val := .imm .undef

def mFixMin : Int := -(2 ^ 59)
def mFixMax : Int := 2 ^ 59 - 1
def int64Min : Int := -(2 ^ 63)
def int64Max : Int := 2 ^ 63 - 1
def sizeMax : Nat := 2 ^ 64 - 1

/-- The word keeps the low 61 bits of its argument. -/
def mlMakeFix (x : Int) : Val := .fix (BitVec.ofInt 61 x)
def mlFixInt (p : BitVec 61) : Int := p.toInt

def mlMakeBool (b : Bool) : Val := if b then mvTrue else mvFalse
def mlMakeSym (i : Nat) : Val := .sym (UInt32.ofNat i)
def mlTruthy (v : Val) : Bool := v != mvFalse
def mlIsSym : Val → Bool
  | .sym _ => true
  | _ => false
def mlIsFix : Val → Bool
  | .fix _ => true
  | _ => false
def mlIsBool (v : Val) : Bool := v == mvTrue || v == mvFalse

/-- `__builtin_*_overflow` on `int64_t`: the exact result, if it fits. -/
def int64Checked (x : Int) : Option Int := if int64Min ≤ x ∧ x ≤ int64Max then some x else none

theorem mlFixInt_ofInt {x : Int} (h : mFixMin ≤ x ∧ x ≤ mFixMax) : mlFixInt (BitVec.ofInt 61 x) = x := by
  simp only [mFixMin, mFixMax] at h
  rw [mlFixInt, BitVec.toInt_ofInt, Int.bmod_eq_of_le] <;> omega

/-! ## Heap objects -/

/-- The C functions a primitive object can point to. -/
inductive PrimFn where
  | add | sub | mul | div | quotient | remainder | modulo
  | numEq | numLt | numGt | numLe | numGe
  | cons | car | cdr | list | length
  | nullP | pairP | numberP | symbolP | stringP | procedureP | booleanP | eqP | eqvP | equalP | not
  | display | write | newline | error
deriving DecidableEq, Repr

/-- `mpair`, `mstring`, `mclosure`, `mprim` and `menv`. A frame's two parallel
arrays are one list of name-value pairs, as long as its `count`. -/
inductive Obj where
  | pair (car cdr : Val)
  | string (bytes : Bytes)
  | closure (env params body : Val) (variadic : Bool) (arityMin : UInt32)
  | prim (name : String) (fn : PrimFn) (arityMin arityMax : UInt32)
  | env (parent : Val) (bindings : List (Val × Val)) (capacity : Nat)
deriving DecidableEq, Repr

namespace Obj

/-- The values an object holds, in the order the collector visits them. -/
def refs : Obj → List Val
  | .pair car cdr => [car, cdr]
  | .string _ => []
  | .prim .. => []
  | .closure e params body _ _ => [e, params, body]
  | .env parent bindings _ => parent :: bindings.flatMap (fun b => [b.2, b.1])

def isPair : Obj → Bool
  | .pair .. => true
  | _ => false

def isString : Obj → Bool
  | .string _ => true
  | _ => false

def isClosure : Obj → Bool
  | .closure .. => true
  | _ => false

def isPrim : Obj → Bool
  | .prim .. => true
  | _ => false

def isEnv : Obj → Bool
  | .env .. => true
  | _ => false

end Obj
end Microlisp
