/-!
# Unsigned 64-bit numbers in decimal

There is one group.

* `readWord64` reads a run of decimal digits.  Leading zeros are allowed; an
  empty run and a value of `2 ^ 64` or more are refused.
-/

namespace Gatework.Text

/-- The value of a run of decimal digits. -/
def digitsValue (digits : List Char) : Nat :=
  digits.foldl (fun value digit => 10 * value + (digit.toNat - '0'.toNat)) 0

/-- The number that a run of decimal digits stands for, if it fits 64 bits. -/
def readWord64 (digits : List Char) : Option Nat :=
  if digits ≠ [] ∧ digits.all Char.isDigit ∧ digitsValue digits < UInt64.size then
    some (digitsValue digits)
  else
    none

end Gatework.Text
