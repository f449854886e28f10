import Microlisp.Datum
import Microlisp.Reader
/-!
# The reader without a heap

What the reader makes of a text, as a function of the text: a datum, or the error it
reports. `Refines` (in `Reading`) says that the reader does this under any allocator and any
schedule of collections.
-/
namespace Microlisp

/-- Why there is no datum: the count ran out, or an error with its record. -/
inductive Stop where
  | fuel
  | error (e : Status) (record : MlError)
deriving DecidableEq

abbrev Parse (α : Type) := Except Stop α

def refuse {α : Type} (line column : Nat) (message : Bytes) (e : Status) : Parse α :=
  .error (.error e ⟨message.take 255, line, column⟩)

/-! ## Tokens -/

def parseEscape (startLine startColumn : Nat) (r : Reader) : Parse (UInt8 × Reader) :=
  match r.peek with
  | none => refuse startLine startColumn (ascii "unterminated escape sequence in string") .errReadTruncated
  | some esc =>
    let r := r.advance
    if esc = ch 'n' then .ok (ch '\n', r)
    else if esc = ch 't' then .ok (ch '\t', r)
    else if esc = ch 'r' then .ok (ch '\r', r)
    else if esc = ch '0' then .ok (0, r)
    else if esc = ch '"' then .ok (ch '"', r)
    else if esc = ch '\\' then .ok (ch '\\', r)
    else if esc = ch 'x' then
      let hi := r.peek
      let r := r.advance
      let lo := r.peek
      let r := r.advance
      match hi.bind hexDigit, lo.bind hexDigit with
      | some h1, some h2 => .ok ((h1 <<< 4) ||| h2, r)
      | _, _ => refuse r.line r.column (ascii "malformed \\xHH escape: need two hex digits") .errReadSyntax
    else
      refuse r.line r.column (ascii "unknown string escape \\" ++ [esc]) .errReadSyntax

def parseStringLoop (startLine startColumn : Nat) : Nat → Reader → Bytes → Parse (Bytes × Reader)
  | 0, _, _ => .error .fuel
  | n + 1, r, buf =>
    match r.peek with
    | none => refuse startLine startColumn (ascii "unterminated string literal") .errReadTruncated
    | some b =>
      let r := r.advance
      if b = ch '"' then
        .ok (buf, r)
      else do
        let (b, r) ← if b = ch '\\' then parseEscape startLine startColumn r else .ok (b, r)
        parseStringLoop startLine startColumn n r (buf ++ [b])

def parseString (r : Reader) : Parse (Datum × Reader) := do
  let (buf, r) ← parseStringLoop r.line r.column (r.advance.rest.length + 1) r.advance []
  .ok (.str buf, r)

def parseHash (r : Reader) : Parse (Datum × Reader) :=
  let b := r.advance.peek
  let r' := r.advance.advance
  if b = some (ch 't') && isTerminator r'.peek then .ok (.bool true, r')
  else if b = some (ch 'f') && isTerminator r'.peek then .ok (.bool false, r')
  else refuse r.line r.column (ascii "unknown # form (only #t and #f are supported)") .errReadSyntax

def parseNumber (sign : Int) (r : Reader) : Parse (Datum × Reader) :=
  let overflow : Parse (Datum × Reader) :=
    refuse r.line r.column (ascii "integer literal exceeds 60-bit fixnum range") .errOverflow
  match readDigits r.rest r 0 false with
  | (none, _, _) => overflow
  | (some value, anyDigit, r') =>
    if !anyDigit then
      refuse r.line r.column (ascii "expected digit after sign") .errReadSyntax
    else if !isTerminator r'.peek then
      refuse r'.line r'.column (ascii "integer literal not followed by a token terminator") .errReadSyntax
    else
      let value := if sign < 0 then -value else value
      if value < mFixMin || value > mFixMax then overflow else .ok (.fix value, r')

/-- Past the bytes up to the next terminator. -/
def skipSymbol (r : Reader) : Reader := advanceWhile (fun b => !isTerminator (some b)) r.rest r

def parseSymbol (r : Reader) : Parse (Datum × Reader) := .ok (.sym (symbolBytes r.rest), skipSymbol r)

/-! ## Forms

A form is nothing at the end of the input. -/

section Nested
variable (limit : Nat) (parseForm : Reader → Parse (Option Datum × Reader))

/-- `elems` are the elements so far. -/
def parseListLoop : Nat → List Datum → Reader → Parse (Datum × Reader)
  | 0, _, _ => .error .fuel
  | n + 1, elems, r =>
    let r := skipWsAndComments r
    match r.peek with
    | none => refuse r.line r.column (ascii "unterminated list") .errReadTruncated
    | some b =>
      if b = ch ')' then
        .ok (.list elems .nil, r.advance)
      else if b = ch '.' && r.peek2.isSome && isTerminator r.peek2 then
        let r := r.advance
        if elems = [] then
          refuse r.line r.column (ascii "dot at start of list") .errReadSyntax
        else do
          let (tail, r) ← parseForm r
          let r := skipWsAndComments r
          if r.peek ≠ some (ch ')') then
            refuse r.line r.column (ascii "expected `)` after dotted-pair tail form") .errReadSyntax
          else
            .ok (.list elems (tail.getD .nil), r.advance)
      else do
        -- the input is not at its end, so there is an element
        let (elem, r) ← parseForm r
        parseListLoop n (elems ++ [elem.getD .nil]) r

def parseList (r : Reader) : Parse (Datum × Reader) :=
  if r.depth ≥ limit then
    refuse r.line r.column (ascii "nesting depth exceeds limit of " ++ decimal limit) .errReadDepth
  else
    let r := skipWsAndComments { r with depth := r.depth + 1 }
    if r.peek = some (ch ')') then
      let r := r.advance
      .ok (.nil, { r with depth := r.depth - 1 })
    else do
      let (d, r) ← parseListLoop parseForm (r.rest.length + 1) [] r
      .ok (d, { r with depth := r.depth - 1 })

def parseQuote (r : Reader) : Parse (Datum × Reader) := do
  match ← parseForm r.advance with
  | (none, _) => refuse r.line r.column (ascii "lone `'` with no following datum") .errReadTruncated
  | (some d, r) => .ok (.list [.sym (ascii "quote"), d] .nil, r)

/-- The form that starts with the byte `b`, the next one of `r`. -/
def parseDatum (b : UInt8) (r : Reader) : Parse (Datum × Reader) :=
  if b = ch '(' then parseList limit parseForm r.advance
  else if b = ch ')' then refuse r.line r.column (ascii "unexpected `)`") .errReadSyntax
  else if b = ch '\'' then parseQuote parseForm r
  else if b = ch '"' then parseString r
  else if b = ch '#' then parseHash r
  else if isDigit b then parseNumber 1 r
  else if (b = ch '+' || b = ch '-') && r.peek2.any isDigit then parseNumber (if b = ch '-' then -1 else 1) r.advance
  else parseSymbol r

end Nested

/-- The form at `r`, with at most so many forms inside one another. -/
def parseForm (limit : Nat) : Nat → Reader → Parse (Option Datum × Reader)
  | 0, _ => .error .fuel
  | n + 1, r =>
    let r := skipWsAndComments r
    match r.peek with
    | none => .ok (none, r)
    | some b => do
      let (d, r) ← parseDatum limit (parseForm limit n) b r
      .ok (some d, r)

/-- The next form of a text. -/
def parse (limit : Nat) (r : Reader) : Parse (Option Datum × Reader) := parseForm limit (r.rest.length + 1) r

end Microlisp
