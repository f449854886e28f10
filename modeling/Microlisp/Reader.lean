import Microlisp.Tables
/-!
# Reader (`reader.c`)

`Reader` is `ml_reader` with the input from `pos` on. The recursion of `read_form`
through `read_list` and `read_quote` is bounded by a count of its simultaneous
activations; the loops are bounded by the bytes that are left.
-/
namespace Microlisp

open Prog

structure Reader where
  rest : Bytes
  pos : Nat
  line : Nat
  column : Nat
  depth : Nat
deriving DecidableEq

namespace Reader

/-- A reader at the start of its input. -/
def start (input : Bytes) : Reader := ⟨input, 0, 1, 1, 0⟩

def peek (r : Reader) : Option UInt8 := r.rest.head?

/-- The byte after the next one. -/
def peek2 (r : Reader) : Option UInt8 := r.rest[1]?

/-- The reader past one byte; at the end of the input it stays. -/
def advance (r : Reader) : Reader :=
  match r.rest with
  | [] => r
  | b :: rest =>
    if b = ch '\n' then
      { r with rest := rest, pos := r.pos + 1, line := r.line + 1, column := 1 }
    else
      { r with rest := rest, pos := r.pos + 1, column := r.column + 1 }

end Reader

def isWhitespace (b : UInt8) : Bool :=
  b = ch ' ' || b = ch '\t' || b = ch '\n' || b = ch '\r' || b = 0x0c || b = 0x0b

def isTerminator : Option UInt8 → Bool
  | none => true
  | some b => isWhitespace b || b = ch '(' || b = ch ')' || b = ch ';' || b = ch '"' || b = ch '\''

def isDigit (b : UInt8) : Bool := ch '0' ≤ b && b ≤ ch '9'

def hexDigit (b : UInt8) : Option UInt8 :=
  if ch '0' ≤ b && b ≤ ch '9' then some (b - ch '0')
  else if ch 'a' ≤ b && b ≤ ch 'f' then some (10 + b - ch 'a')
  else if ch 'A' ≤ b && b ≤ ch 'F' then some (10 + b - ch 'A')
  else none

/-- `while (p(peek(r))) advance(r)`, over the bytes `r.rest`. -/
def advanceWhile (p : UInt8 → Bool) : Bytes → Reader → Reader
  | [], r => r
  | b :: bs, r => if p b then advanceWhile p bs r.advance else r

/-- Each turn but the last one takes a byte. -/
def skipLoop : Nat → Reader → Reader
  | 0, r => r
  | n + 1, r =>
    match r.peek with
    | none => r
    | some b =>
      if isWhitespace b then skipLoop n r.advance
      else if b = ch ';' then skipLoop n (advanceWhile (fun b => b ≠ ch '\n') r.rest r)
      else r

def skipWsAndComments (r : Reader) : Reader := skipLoop (r.rest.length + 1) r

/-! ## Strings -/

/-- The byte an escape stands for; the reader is past the backslash. -/
def readEscape (startLine startColumn : Nat) (r : Reader) : ML (UInt8 × Reader) :=
  match r.peek with
  | none => raise startLine startColumn (ascii "unterminated escape sequence in string") .errReadTruncated
  | some esc =>
    let r := r.advance
    if esc = ch 'n' then pure (ch '\n', r)
    else if esc = ch 't' then pure (ch '\t', r)
    else if esc = ch 'r' then pure (ch '\r', r)
    else if esc = ch '0' then pure (0, r)
    else if esc = ch '"' then pure (ch '"', r)
    else if esc = ch '\\' then pure (ch '\\', r)
    else if esc = ch 'x' then
      let hi := r.peek
      let r := r.advance
      let lo := r.peek
      let r := r.advance
      match hi.bind hexDigit, lo.bind hexDigit with
      | some h1, some h2 => pure ((h1 <<< 4) ||| h2, r)
      | _, _ => raise r.line r.column (ascii "malformed \\xHH escape: need two hex digits") .errReadSyntax
    else
      raise r.line r.column (ascii "unknown string escape \\" ++ [esc]) .errReadSyntax

/-- Each turn takes a byte. `buf` is the scratch buffer, of capacity `cap`. -/
def readStringLoop (c : Config) (startLine startColumn : Nat) : Nat → Reader → Bytes → Nat → ML (Bytes × Reader)
  | 0, _, _, _ => timeout
  | n + 1, r, buf, cap =>
    match r.peek with
    | none => raise startLine startColumn (ascii "unterminated string literal") .errReadTruncated
    | some b =>
      let r := r.advance
      if b = ch '"' then
        pure (buf, r)
      else do
        let (b, r) ← if b = ch '\\' then readEscape startLine startColumn r else pure (b, r)
        let cap ← if buf.length = cap then do
            rawAllocOrFail c (cap * 2)
            pure (cap * 2)
          else
            pure cap
        readStringLoop c startLine startColumn n r (buf ++ [b]) cap

def readString (c : Config) (r : Reader) : ML (Val × Reader) := do
  let startLine := r.line
  let startColumn := r.column
  let r := r.advance
  rawAllocOrFail c 32
  let (buf, r) ← readStringLoop c startLine startColumn (r.rest.length + 1) r [] 32
  let out ← mlGcAllocString c buf
  pure (out, r)

/-! ## Hash forms, numbers and symbols -/

def readHash (r : Reader) : ML (Val × Reader) :=
  let line := r.line
  let column := r.column
  let r := r.advance
  let b := r.peek
  let r := r.advance
  let next := r.peek
  if b = some (ch 't') && isTerminator next then pure (mvTrue, r)
  else if b = some (ch 'f') && isTerminator next then pure (mvFalse, r)
  else raise line column (ascii "unknown # form (only #t and #f are supported)") .errReadSyntax

/-- The digits, folded into an `int64_t`: nothing once that overflows, with the
remaining digits skipped. The flag says whether there was a digit. -/
def readDigits : Bytes → Reader → Int → Bool → Option Int × Bool × Reader
  | [], r, value, anyDigit => (some value, anyDigit, r)
  | b :: bs, r, value, anyDigit =>
    if isDigit b then
      let r := r.advance
      let digit : Int := (b - ch '0').toNat
      match (int64Checked (value * 10)).bind fun multiplied => int64Checked (multiplied + digit) with
      | none => (none, true, advanceWhile isDigit bs r)
      | some added => readDigits bs r added true
    else
      (some value, anyDigit, r)

def readNumber (sign : Int) (r : Reader) : ML (Val × Reader) :=
  let startLine := r.line
  let startColumn := r.column
  let overflow : ML (Val × Reader) :=
    raise startLine startColumn (ascii "integer literal exceeds 60-bit fixnum range") .errOverflow
  match readDigits r.rest r 0 false with
  | (none, _, _) => overflow
  | (some value, anyDigit, r) =>
    if !anyDigit then
      raise startLine startColumn (ascii "expected digit after sign") .errReadSyntax
    else if !isTerminator r.peek then
      raise r.line r.column (ascii "integer literal not followed by a token terminator") .errReadSyntax
    else do
      let value ← if sign < 0 then int64Op (-value) else pure value
      if value < mFixMin || value > mFixMax then
        overflow
      else
        let v ← makeFix value
        pure (v, r)

/-- The bytes up to the next terminator. -/
def symbolBytes (bs : Bytes) : Bytes := bs.takeWhile fun b => !isTerminator (some b)

def readSymbol (c : Config) (r : Reader) : ML (Val × Reader) := do
  let sym ← mlSymIntern c (symbolBytes r.rest)
  pure (sym, advanceWhile (fun b => !isTerminator (some b)) r.rest r)

/-! ## Lists and quotes -/

/-- `ml_as_pair(v)->cdr = d`. -/
def setCdr (v d : Val) : ML Unit := do
  match ← asObj v with
  | .pair a _ => writeObj v (.pair a d)
  | _ => stuck

/-- The list loop: `head` is the dummy head, `tail` the last cell so far. Each turn
takes a byte. -/
def readListLoop (c : Config) (readForm : Reader → ML (Val × Reader)) (sp : Nat) (head : Val) :
    Nat → Val → Reader → ML Reader
  | 0, _, _ => timeout
  | n + 1, tail, r => do
    let r := skipWsAndComments r
    match r.peek with
    | none =>
      (raise r.line r.column (ascii "unterminated list") .errReadTruncated).onErr (mlGcRestore sp)
    | some b =>
      if b = ch ')' then
        pure r.advance
      else if b = ch '.' && r.peek2.isSome && isTerminator r.peek2 then
        let r := r.advance
        if tail = head then
          (raise r.line r.column (ascii "dot at start of list") .errReadSyntax).onErr (mlGcRestore sp)
        else
          let (cdrForm, r) ← (readForm r).onErr (mlGcRestore sp)
          setCdr tail cdrForm
          let r := skipWsAndComments r
          if r.peek ≠ some (ch ')') then
            (raise r.line r.column (ascii "expected `)` after dotted-pair tail form") .errReadSyntax).onErr
              (mlGcRestore sp)
          else
            pure r.advance
      else
        let (elem, r) ← (readForm r).onErr (mlGcRestore sp)
        (mlGcProtect c elem).onErr (mlGcRestore sp)
        let cell ← ((mlGcAllocPair c elem mvNil).andThen (mlGcUnprotect 1)).onErr (mlGcRestore sp)
        setCdr tail cell
        readListLoop c readForm sp head n cell r

def readList (c : Config) (readForm : Reader → ML (Val × Reader)) (r : Reader) : ML (Val × Reader) :=
  if r.depth ≥ c.maxReadDepth then
    raise r.line r.column (ascii "nesting depth exceeds limit of " ++ decimal c.maxReadDepth) .errReadDepth
  else
    let r := skipWsAndComments { r with depth := r.depth + 1 }
    if r.peek = some (ch ')') then
      let r := r.advance
      pure (mvNil, { r with depth := r.depth - 1 })
    else do
      let sp ← mlGcSavepoint
      let head ← mlGcAllocPair c mvNil mvNil
      mlGcProtect c head
      let r ← readListLoop c readForm sp head (r.rest.length + 1) head r
      let out ← cdr head
      modify (mlGcRestore sp)
      pure (out, { r with depth := r.depth - 1 })

def readQuote (c : Config) (readForm : Reader → ML (Val × Reader)) (r : Reader) : ML (Val × Reader) := do
  let startLine := r.line
  let startColumn := r.column
  let (form, r) ← readForm r.advance
  if form = mvEof then
    raise startLine startColumn (ascii "lone `'` with no following datum") .errReadTruncated
  else
    let sp ← mlGcSavepoint
    mlGcProtect c form
    let inner ← (mlGcAllocPair c form mvNil).onErr (mlGcRestore sp)
    modify (mlGcUnprotect 1)
    mlGcProtect c inner
    let out ← (mlGcAllocPair c c.symQuote inner).andThen (mlGcRestore sp)
    pure (out, r)

/-- `read_form`, with at most as many simultaneous activations as the count says. -/
def readForm (c : Config) : Nat → Reader → ML (Val × Reader)
  | 0, _ => timeout
  | n + 1, r =>
    let r := skipWsAndComments r
    match r.peek with
    | none => pure (mvEof, r)
    | some b =>
      if b = ch '(' then readList c (readForm c n) r.advance
      else if b = ch ')' then raise r.line r.column (ascii "unexpected `)`") .errReadSyntax
      else if b = ch '\'' then readQuote c (readForm c n) r
      else if b = ch '"' then readString c r
      else if b = ch '#' then readHash r
      else if isDigit b then readNumber 1 r
      else if b = ch '+' || b = ch '-' then
        if r.peek2.any isDigit then readNumber (if b = ch '-' then -1 else 1) r.advance
        else readSymbol c r
      else readSymbol c r

/-- Every activation of `read_form` but the first follows a byte of the input. -/
def mlRead (c : Config) (r : Reader) : ML (Val × Reader) := readForm c (r.rest.length + 1) r

end Microlisp
