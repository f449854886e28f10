import Microlisp.Gc
/-!
# Symbols, frames and equality (`symtab.c`, `env.c`, `value.c`)
-/
namespace Microlisp

open Prog

/-! ## Symbol interning -/

def mlSymIntern (c : Config) (name : Bytes) : ML Val := do
  let entries ← gets fun s => s.symtab.entries
  match entries.findIdx? (fun e => e == name) with
  | some i => pure (mlMakeSym i)
  | none =>
    let capacity ← gets fun s => s.symtab.capacity
    if entries.length = capacity then
      let newCap := if capacity = 0 then 32 else capacity * 2
      rawAllocOrFail c (newCap * 16)
      modify fun s => { s with symtab := ⟨s.symtab.entries, newCap⟩ }
    if entries.length > 0x0FFFFFFF then
      fail .errNomem
    else
      rawAllocOrFail c (name.length + 1)
      modify fun s => { s with symtab := ⟨s.symtab.entries ++ [name], s.symtab.capacity⟩ }
      pure (mlMakeSym entries.length)

/-- The name of a symbol; the empty name when its index is not in the table. -/
def Symtab.name (t : Symtab) : Val → Bytes
  | .sym i => (t.entries[i.toNat]?).getD []
  | _ => []

def mlSymName (sym : Val) : ML Bytes := gets fun s => s.symtab.name sym

/-- `%.*s` with `(int)len`: a length that does not fit an `int` goes negative, which
prints up to the first NUL, or wraps to a shorter one. -/
def formatName (name : Bytes) : Bytes :=
  let len := (BitVec.ofNat 32 name.length).toInt
  (if len < 0 then name else name.take len.toNat).takeWhile (· ≠ 0)

/-! ## Frames -/

/-- The first binding of `name`, overwritten. -/
def assign (name value : Val) : List (Val × Val) → Option (List (Val × Val))
  | [] => none
  | b :: bs => if b.1 = name then some ((name, value) :: bs) else (assign name value bs).map (b :: ·)

def envGrow (c : Config) (capacity : Nat) : ML Nat := do
  let newCap := if capacity = 0 then 8 else capacity * 2
  rawAllocOrFail c (newCap * 8)
  rawAllocOrFail c (newCap * 8)
  pure newCap

def mlEnvDefine (c : Config) (env name value : Val) : ML Unit := do
  if !(← mlIsEnv env) || !mlIsSym name then
    fail .errInvalidArg
  else
    let e ← envFields env
    match assign name value e.bindings with
    | some bs => writeObj env (.env e.parent bs e.capacity)
    | none =>
      let capacity ← if e.bindings.length = e.capacity then envGrow c e.capacity else pure e.capacity
      writeObj env (.env e.parent (e.bindings ++ [(name, value)]) capacity)

def envSetLoop (name value : Val) : Nat → Val → ML Unit
  | 0, _ => timeout
  | n + 1, cur => do
    if ← mlIsEnv cur then
      let e ← envFields cur
      match assign name value e.bindings with
      | some bs => writeObj cur (.env e.parent bs e.capacity)
      | none => envSetLoop name value n e.parent
    else
      fail .errUnbound

def mlEnvSet (env name value : Val) : ML Unit := do
  if mlIsSym name then
    let bound ← walkBound
    envSetLoop name value bound env
  else
    fail .errInvalidArg

def envLookupLoop (name : Val) : Nat → Val → ML Val
  | 0, _ => timeout
  | n + 1, cur => do
    if ← mlIsEnv cur then
      let e ← envFields cur
      match e.bindings.find? (fun b => b.1 = name) with
      | some b => pure b.2
      | none => envLookupLoop name n e.parent
    else
      fail .errUnbound

def mlEnvLookup (env name : Val) : ML Val := do
  if mlIsSym name then
    let bound ← walkBound
    envLookupLoop name bound env
  else
    fail .errInvalidArg

/-! ## Equality -/

def mlValueEq (a b : Val) : Bool := a == b

def mlValueEqv (a b : Val) : ML Bool := do
  if a = b then
    pure true
  else if ← mlIsString a then
    if ← mlIsString b then
      let sa ← stringBytes a
      let sb ← stringBytes b
      pure (sa == sb)
    else
      pure false
  else
    pure false

def leaveEqual (s : State) : State := { s with equalDepth := s.equalDepth - 1 }

/-- `ml_value_equal`. Each level of the recursion adds one to `equal_depth`, which
the limit bounds; so does `n`. -/
def valueEqual (c : Config) : Nat → Val → Val → ML Bool
  | 0, _, _ => timeout
  | n + 1, a, b => do
    let depth ← gets State.equalDepth
    if depth ≥ c.maxEqualDepth then
      raise 0 0 (ascii "equal?: comparison depth exceeded limit of " ++ decimal c.maxEqualDepth)
        .errEqualDepth
    else if ← mlValueEqv a b then
      pure true
    else if !(← mlIsPair a) then
      pure false
    else if !(← mlIsPair b) then
      pure false
    else
      let carA ← car a
      let carB ← car b
      modify fun s => { s with equalDepth := s.equalDepth + 1 }
      let carEq ← (valueEqual c n carA carB).onErr leaveEqual
      if !carEq then
        modify leaveEqual
        pure false
      else
        let cdrA ← cdr a
        let cdrB ← cdr b
        (valueEqual c n cdrA cdrB).andThen leaveEqual

def mlValueEqual (c : Config) (a b : Val) : ML Bool := do
  let depth ← gets State.equalDepth
  valueEqual c (c.maxEqualDepth - depth + 1) a b

end Microlisp
