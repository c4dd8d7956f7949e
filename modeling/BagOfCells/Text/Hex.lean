import BagOfCells.Bits
import BagOfCells.Text.Numeral

/-!
# Hexadecimal text

Two digits a byte. Lower case is written for bytes and upper case in the picture of a cell; both are
read.

## Main definitions

* `Hex.encode`, `Hex.encodeUpper`: the text of some bytes
* `Hex.decode?`: the bytes of a text, which must have an even count of digits and nothing else
* `Hex.fixed width n`: the text of a number, with leading zeros
-/

namespace BagOfCells.Hex

/-- The lower-case digit of a number below sixteen. -/
def digit (n : Nat) : Char :=
  if n < 10 then Char.ofNat ('0'.toNat + n) else Char.ofNat ('a'.toNat + n - 10)

/-- The upper-case digit of a number below sixteen. -/
def digitUpper (n : Nat) : Char :=
  if n < 10 then Char.ofNat ('0'.toNat + n) else Char.ofNat ('A'.toNat + n - 10)

/-- The lower-case text of some bytes. -/
def encode (bytes : List UInt8) : String :=
  String.ofList (bytes.flatMap fun byte => [digit (byte.toNat / 16), digit (byte.toNat % 16)])

/-- The upper-case text of a bit string, four bits a digit; what is left at the end is dropped. -/
def encodeUpper : Bits → List Char
  | b₀ :: b₁ :: b₂ :: b₃ :: rest => digitUpper (Bits.toNat [b₀, b₁, b₂, b₃]) :: encodeUpper rest
  | _ => []

/-- The bytes of a text of digits in either case. -/
def decode? : List Char → Option (List UInt8)
  | [] => some []
  | [_] => none
  | high :: low :: rest => do
    let high ← Numeral.digit? 16 high
    let low ← Numeral.digit? 16 low
    let bytes ← decode? rest
    return UInt8.ofNat (16 * high + low) :: bytes

/-- The lower-case text of a number, filled with zeros up to `width` digits. -/
def fixed (width n : Nat) : String :=
  let digits := Nat.toDigits 16 n
  String.ofList (List.replicate (width - digits.length) '0' ++ digits)

end BagOfCells.Hex
