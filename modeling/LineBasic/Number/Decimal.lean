import LineBasic.Text

/-
  LineBasic.Number.Decimal — the value of a run of decimal digits, and how many digits a number has.
-/

namespace LineBasic

/-- The value of one more digit after the digits that have the value `n`. -/
def appendDigit (n : Nat) (digit : Char) : Nat := 10 * n + (digit.toNat - '0'.toNat)

/-- The value of decimal digits, most significant first; leading zeros do not count. -/
def decimalValue (digits : Text) : Nat := digits.foldl appendDigit 0

/-- How many decimal digits an integer has when it is written. Its sign is none. -/
def digitCount (n : Int) : Nat := (Nat.toDigits 10 n.natAbs).length

end LineBasic
