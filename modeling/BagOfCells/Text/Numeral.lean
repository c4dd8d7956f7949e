import BagOfCells.Bits

/-!
# Numerals

Numerals in a base of at most thirty-six. A numeral is one or more digits; where a number is
expected a sign may stand in front: a plus sign before any number, a minus sign before a signed one.
A numeral that exceeds its type is refused, not cut.

## Main definitions

* `Numeral.digit?`, `Numeral.value?`: the digits alone
* `Numeral.word? base`: a number below `2 ^ 64`
* `Numeral.signedByte?`: a decimal number from -128 to 127
-/

namespace BagOfCells.Numeral

/-- The value of a digit, letters of either case standing for ten and up. -/
def digit? (base : Nat) (c : Char) : Option Nat :=
  let value :=
    if c.isDigit then c.toNat - '0'.toNat
    else if c.isLower then c.toNat - 'a'.toNat + 10
    else if c.isUpper then c.toNat - 'A'.toNat + 10
    else base
  if value < base then some value else none

/-- The value of one or more digits. -/
def value? (base : Nat) (text : List Char) : Option Nat :=
  if text.isEmpty then none
  else text.foldlM (fun n c => (digit? base c).map (base * n + ·)) 0

/-- A numeral with an optional plus sign, for a number below `2 ^ 64`. -/
def word? (base : Nat) (text : List Char) : Option UInt64 :=
  let digits := match text with
    | '+' :: digits => digits
    | digits => digits
  (value? base digits).bind fun n => if n < Bits.bound 64 then some (UInt64.ofNat n) else none

/-- A decimal numeral with an optional sign, for a number from -128 to 127. -/
def signedByte? (text : List Char) : Option Int8 :=
  let value := match text with
    | '-' :: digits => (value? 10 digits).map fun n => -(n : Int)
    | '+' :: digits => (value? 10 digits).map fun n => (n : Int)
    | digits => (value? 10 digits).map fun n => (n : Int)
  value.bind fun v => if -128 ≤ v ∧ v ≤ 127 then some (Int8.ofInt v) else none

end BagOfCells.Numeral
