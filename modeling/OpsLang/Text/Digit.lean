/-!
# Digits

The value of a digit in a radix up to sixteen, and the value of a row of digits.
-/

namespace OpsLang

/-- The value of a hexadecimal digit, in either case. -/
def digitValue? (c : Char) : Option Nat :=
  if c.isDigit then some (c.toNat - '0'.toNat)
  else if 'a' ≤ c ∧ c ≤ 'f' then some (c.toNat - 'a'.toNat + 10)
  else if 'A' ≤ c ∧ c ≤ 'F' then some (c.toNat - 'A'.toNat + 10)
  else none

/-- The value of a digit of the radix, for a radix up to sixteen. -/
def digitOf? (radix : Nat) (c : Char) : Option Nat :=
  (digitValue? c).filter (· < radix)

/-- The character is a digit of the radix. -/
def isDigitOf (radix : Nat) (c : Char) : Bool :=
  (digitOf? radix c).isSome

/-- The value of a row of digits, the first of which counts most. -/
def digitsValue (radix : Nat) (ds : List Char) : Nat :=
  ds.foldl (fun n d => radix * n + (digitValue? d).getD 0) 0

end OpsLang
