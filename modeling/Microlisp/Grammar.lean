import Microlisp.Scan
/-!
# The grammar

What the text of a datum is, said without a reader, and what the text denotes. `Text` relates
the start of a text to the datum it starts with and to the text that follows; the parser takes
exactly these texts.
-/
namespace Microlisp

/-! ## Tokens -/

/-- The escapes of one letter, each with the byte that it stands for. -/
def namedEscapes : List (UInt8 × UInt8) :=
  [(ch 'n', ch '\n'), (ch 't', ch '\t'), (ch 'r', ch '\r'), (ch '0', 0), (ch '"', ch '"'), (ch '\\', ch '\\')]

/-- What follows a backslash in a string, and the byte that it stands for. -/
inductive Escape : Bytes → UInt8 → Prop
  | named {esc b : UInt8} : (esc, b) ∈ namedEscapes → Escape [esc] b
  | hex {h l x y : UInt8} : hexDigit h = some x → hexDigit l = some y → Escape [ch 'x', h, l] (16 * x + y)

/-- The text after the opening quote mark of a string, and what is left after the string. -/
inductive StringText : Bytes → Bytes → Bytes → Prop
  | close {rest : Bytes} : StringText [] (ch '"' :: rest) rest
  | plain {b : UInt8} {bytes text rest : Bytes} : b ≠ ch '"' → b ≠ ch '\\' → StringText bytes text rest →
      StringText (b :: bytes) (b :: text) rest
  | escape {b : UInt8} {esc bytes text rest : Bytes} : Escape esc b → StringText bytes text rest →
      StringText (b :: bytes) (ch '\\' :: esc ++ text) rest

/-- The signs of a number: none, plus and minus. -/
def signs : List (Bytes × Int) := [([], 1), ([ch '+'], 1), ([ch '-'], -1)]

def addDigit (n : Int) (b : UInt8) : Int := n * 10 + (b - ch '0').toNat

/-- The number that decimal digits denote. -/
def digitsValue (digits : Bytes) : Int := digits.foldl addDigit 0

/-- A number of digits, signed. -/
def numberText (text : Bytes) (x : Int) : Prop :=
  ∃ sign n digits, (sign, n) ∈ signs ∧ digits ≠ [] ∧ (∀ b ∈ digits, isDigit b = true) ∧ text = sign ++ digits ∧
    x = n * digitsValue digits

/-- The start of a token of another kind: `#`, a digit, or a sign and a digit. -/
def startsOther (text : Bytes) : Prop :=
  text.head? = some (ch '#') ∨ text.head?.any isDigit = true ∨
    (text.head? = some (ch '+') ∨ text.head? = some (ch '-')) ∧ text[1]?.any isDigit = true

/-- The bytes of a symbol. -/
def symbolText (name : Bytes) : Prop := name ≠ [] ∧ (∀ b ∈ name, isTerminator (some b) = false) ∧ ¬ startsOther name

/-! ## Data -/

/-- A dot before a terminator byte. -/
def Dot (text : Bytes) : Prop := ∃ b bs, text = ch '.' :: b :: bs ∧ isTerminator (some b) = true

/-- What a text starts with: a datum, or what is left of a list. A list has started after its first element. -/
inductive Part where
  | datum
  | list (started : Bool)

/-- The text starts with such a part, of lists nested up to `k` deep, which denotes the
datum; the last text is what follows it. -/
inductive Text : Part → Nat → Datum → Bytes → Bytes → Prop
  | bool {k : Nat} {b : Bool} {rest : Bytes} : isTerminator rest.head? = true →
      Text .datum k (.bool b) (ch '#' :: ch (if b then 't' else 'f') :: rest) rest
  | number {k : Nat} {text rest : Bytes} {x : Int} : numberText text x → fitsFixnum x = true →
      isTerminator rest.head? = true →
      Text .datum k (.fix x) (text ++ rest) rest
  | symbol {k : Nat} {name rest : Bytes} : symbolText name → isTerminator rest.head? = true →
      Text .datum k (.sym name) (name ++ rest) rest
  | string {k : Nat} {bytes text rest : Bytes} : StringText bytes text rest →
      Text .datum k (.str bytes) (ch '"' :: text) rest
  | quote {k : Nat} {d : Datum} {lay text rest : Bytes} : Layout lay → Text .datum k d text rest →
      Text .datum k (.list [.sym (ascii "quote"), d] .nil) (ch '\'' :: lay ++ text) rest
  | list {k : Nat} {d : Datum} {text rest : Bytes} : Text (.list false) k d text rest →
      Text .datum (k + 1) d (ch '(' :: text) rest
  | close {started : Bool} {k : Nat} {lay rest : Bytes} : Layout lay →
      Text (.list started) k .nil (lay ++ ch ')' :: rest) rest
  | elem {started : Bool} {k : Nat} {a d : Datum} {lay text mid rest : Bytes} : Layout lay → ¬ Dot text →
      Text .datum k a text mid →
      Text (.list true) k d mid rest → Text (.list started) k (.pair a d) (lay ++ text) rest
  | dotted {k : Nat} {d : Datum} {lay lay' lay'' text rest : Bytes} : Layout lay → Layout lay' → Layout lay'' →
      Dot (ch '.' :: lay' ++ text) → Text .datum k d text (lay'' ++ ch ')' :: rest) →
      Text (.list true) k d (lay ++ ch '.' :: lay' ++ text) rest

end Microlisp
