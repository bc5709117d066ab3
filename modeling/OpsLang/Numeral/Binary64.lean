import OpsLang.Numeral

/-!
# Values in binary64

A `Binary64` is a floating-point number of sixty-four bits. `Binary64.nearest` rounds a
quotient of natural numbers to the nearest one, ties to even, and `Binary64.ofDecimal?`
reads a decimal spelling, which may also name infinity or no number at all.
`Numeral.toBinary64?` is the value of a numeral.

The bits of a positive finite number `m · 2 ^ q`, with `q` at least `-1074` and `m` of at
most fifty-three bits, are `(q + 1074) · 2 ^ 52 + m`; the carry of a rounding goes into the
exponent by itself, and every sum past the last finite number is infinity.
-/

namespace OpsLang

/-- A floating-point number, by its bits. -/
structure Binary64 where
  bits : UInt64
  deriving DecidableEq, Repr, Inhabited

namespace Binary64

/-- Infinity, as a number of bits. -/
def infinityBits : Nat := 0x7ff0000000000000

/-- Infinity. -/
def infinity : Binary64 := ⟨UInt64.ofNat infinityBits⟩

/-- No number. -/
def nan : Binary64 := ⟨0x7ff8000000000000⟩

/-- The number is no number. -/
def isNan (x : Binary64) : Bool :=
  x.bits.toNat % 0x8000000000000000 > infinityBits

/-- The number with the other sign. -/
def neg (x : Binary64) : Binary64 :=
  ⟨x.bits ^^^ 0x8000000000000000⟩

/-- The natural number nearest `num / den`, the even one of two. -/
def roundHalfEven (num den : Nat) : Nat :=
  let quotient := num / den
  let remainder := num % den
  if 2 * remainder < den then quotient
  else if den < 2 * remainder then quotient + 1
  else quotient + quotient % 2

/-- The exponent of the greatest power of two that is at most `num / den`. -/
def floorLog2 (num den : Nat) : Int :=
  let k : Int := num.log2 - den.log2
  if den <<< k.toNat ≤ num <<< (-k).toNat then k else k - 1

/-- The number nearest `num / den`, for `den` positive. -/
def nearest (num den : Nat) : Binary64 :=
  if num = 0 then ⟨0⟩
  else
    let q : Int := max (floorLog2 num den - 52) (-1074)
    let m := roundHalfEven (num <<< (-q).toNat) (den <<< q.toNat)
    ⟨UInt64.ofNat (min (((q + 1074).toNat <<< 52) + m) infinityBits)⟩

/-- The number nearest a natural number. -/
def ofNat (n : Nat) : Binary64 :=
  nearest n 1

/-- The number nearest `digits · 10 ^ exponent`. Past `10 ^ 309` every number is infinity,
and below `10 ^ -330` it is zero. -/
def ofScientific (digits : Nat) (exponent : Int) : Binary64 :=
  let width : Int := (Nat.toDigits 10 digits).length
  if digits = 0 then ⟨0⟩
  else if 310 < width + exponent then infinity
  else if width + exponent < -330 then ⟨0⟩
  else nearest (digits * Nat.pow 10 exponent.toNat) (Nat.pow 10 (-exponent).toNat)

/-! ## Decimal spellings -/

/-- The sign at the front of a spelling, true for minus, and the rest. -/
def splitSign : List Char → Bool × List Char
  | '+' :: cs => (false, cs)
  | '-' :: cs => (true, cs)
  | cs => (false, cs)

/-- The exponent that ends a spelling : nothing, or `e`, a sign or none, and digits. -/
def exponent? : List Char → Option Int
  | [] => some 0
  | e :: cs =>
    let (negative, ds) := splitSign cs
    if (e = 'e' ∨ e = 'E') ∧ !ds.isEmpty ∧ ds.all Char.isDigit then
      let n : Int := digitsValue 10 ds
      some (if negative then -n else n)
    else none

/-- The magnitude of a spelling in digits : digits with a point or none among them, then an
exponent. -/
def magnitude? (cs : List Char) : Option Binary64 := do
  let whole := cs.takeWhile Char.isDigit
  let rest := cs.dropWhile Char.isDigit
  let pointed := rest.head? = some '.'
  let fraction := if pointed then rest.tail.takeWhile Char.isDigit else []
  let rest := if pointed then rest.tail.dropWhile Char.isDigit else rest
  let exponent ← exponent? rest
  if whole.isEmpty && fraction.isEmpty then none
  else some (ofScientific (digitsValue 10 (whole ++ fraction)) (exponent - fraction.length))

/-- The number that a decimal spelling names. -/
def ofDecimal? (spelling : String) : Option Binary64 :=
  let (negative, cs) := splitSign spelling.toList
  let word := cs.map Char.toLower
  let magnitude :=
    if word = "inf".toList ∨ word = "infinity".toList then some infinity
    else if word = "nan".toList then some nan
    else magnitude? cs
  magnitude.map fun x => if negative then x.neg else x

/-- The bits in sixteen lower-case hexadecimal digits. -/
def hex (x : Binary64) : String :=
  let digits := Nat.toDigits 16 x.bits.toNat
  String.ofList (List.replicate (16 - digits.length) '0' ++ digits)

end Binary64

/-- The value of a numeral : of its integer spelling if it fits in sixty-four bits, else of
its decimal spelling. -/
def Numeral.toBinary64? (n : Numeral) : Option Binary64 :=
  match n.toUInt64? with
  | some v => some (Binary64.ofNat v.toNat)
  | none => Binary64.ofDecimal? n.lexeme

end OpsLang
