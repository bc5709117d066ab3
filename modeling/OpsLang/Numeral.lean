import OpsLang.Text.Digit

/-!
# Numerals

A `Numeral` keeps the spelling of a number and whether it is an integer or a decimal.
`Numeral.toUInt64?` is the value of an integer spelling that fits in sixty-four bits, with
radix prefixes honoured.
-/

namespace OpsLang

/-- Whether a numeral has a fraction or an exponent. -/
inductive NumeralKind where
  | integer
  | decimal
  deriving DecidableEq, Repr, Inhabited

/-- The word for a kind of numeral. -/
def NumeralKind.text : NumeralKind → String
  | integer => "integer"
  | decimal => "decimal"

/-- A number in its source spelling. -/
structure Numeral where
  lexeme : String
  kind : NumeralKind
  deriving DecidableEq, Repr, Inhabited

/-- The radix and the digits of a spelling that begins with a radix prefix. -/
def radixSplit? : List Char → Option (Nat × List Char)
  | '0' :: 'x' :: ds | '0' :: 'X' :: ds => some (16, ds)
  | '0' :: 'b' :: ds | '0' :: 'B' :: ds => some (2, ds)
  | '0' :: 'o' :: ds | '0' :: 'O' :: ds => some (8, ds)
  | _ => none

/-- The value of a row of digits, when there is at least one and all are of the radix. A
plus sign may stand before them. -/
def wholeValue? (radix : Nat) (ds : List Char) : Option Nat :=
  let ds := if ds.head? = some '+' then ds.tail else ds
  if !ds.isEmpty && ds.all (isDigitOf radix) then some (digitsValue radix ds) else none

namespace Numeral

/-- The numeral of a spelling : a decimal if it holds a point or an `e` and no radix
prefix. -/
def ofLexeme (lexeme : String) : Numeral :=
  let cs := lexeme.toList
  if (radixSplit? cs).isNone && cs.any (fun c => c == '.' || c == 'e' || c == 'E') then
    ⟨lexeme, .decimal⟩
  else ⟨lexeme, .integer⟩

/-- The value of an integer numeral, unless it takes more than sixty-four bits. -/
def toUInt64? (n : Numeral) : Option UInt64 :=
  match n.kind with
  | .decimal => none
  | .integer =>
    let parts := (radixSplit? n.lexeme.toList).getD (10, n.lexeme.toList)
    match wholeValue? parts.1 parts.2 with
    | some v => if v < UInt64.size then some (UInt64.ofNat v) else none
    | none => none

end Numeral

end OpsLang
