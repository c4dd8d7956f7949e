/-!
# Base64 text

Three bytes are four characters of a 64-letter alphabet. There are two alphabets, which differ in
their last two letters, and two ways to end: padded to a multiple of four characters, or without
padding. Reading is strict: padding must be exactly as written, and the bits left over in the last
character must be zero, so each byte string has one text per variant.

## Main definitions

* `Base64.Variant`: an alphabet and whether texts are padded
* `Base64.encode`, `Base64.decode?`: writing and reading
-/

namespace BagOfCells.Base64

/-- An alphabet, given by its last two letters, and whether texts are padded. -/
structure Variant where
  letter62 : Char
  letter63 : Char
  /-- Whether a text is filled up to a multiple of four characters. -/
  padded : Bool

/-- The standard alphabet, padded. -/
def standard : Variant := ⟨'+', '/', true⟩

/-- The alphabet that is safe in a URL, padded. -/
def urlSafe : Variant := ⟨'-', '_', true⟩

/-- The alphabet that is safe in a URL, without padding. -/
def urlSafeUnpadded : Variant := ⟨'-', '_', false⟩

/-- The letter of a number below sixty-four. -/
def Variant.letter (variant : Variant) (n : Nat) : Char :=
  if n < 26 then Char.ofNat ('A'.toNat + n)
  else if n < 52 then Char.ofNat ('a'.toNat + n - 26)
  else if n < 62 then Char.ofNat ('0'.toNat + n - 52)
  else if n = 62 then variant.letter62
  else variant.letter63

/-- The number a letter stands for. -/
def Variant.value? (variant : Variant) (c : Char) : Option Nat :=
  if c.isUpper then some (c.toNat - 'A'.toNat)
  else if c.isLower then some (c.toNat - 'a'.toNat + 26)
  else if c.isDigit then some (c.toNat - '0'.toNat + 52)
  else if c = variant.letter62 then some 62
  else if c = variant.letter63 then some 63
  else none

/-- The six-bit groups of some bytes, the last one filled with zeros. -/
def sextets : List UInt8 → List Nat
  | a :: b :: c :: rest =>
    a.toNat / 4 :: (a.toNat % 4 * 16 + b.toNat / 16) :: (b.toNat % 16 * 4 + c.toNat / 64) ::
      c.toNat % 64 :: sextets rest
  | [a, b] => [a.toNat / 4, a.toNat % 4 * 16 + b.toNat / 16, b.toNat % 16 * 4]
  | [a] => [a.toNat / 4, a.toNat % 4 * 16]
  | [] => []

/-- The bytes of some six-bit groups; the bits left over must be zero. -/
def ofSextets? : List Nat → Option (List UInt8)
  | a :: b :: c :: d :: rest => (ofSextets? rest).map fun bytes =>
    UInt8.ofNat (a * 4 + b / 16) :: UInt8.ofNat (b % 16 * 16 + c / 4) ::
      UInt8.ofNat (c % 4 * 64 + d) :: bytes
  | [a, b, c] =>
    if c % 4 = 0 then some [UInt8.ofNat (a * 4 + b / 16), UInt8.ofNat (b % 16 * 16 + c / 4)]
    else none
  | [a, b] => if b % 16 = 0 then some [UInt8.ofNat (a * 4 + b / 16)] else none
  | [_] => none
  | [] => some []

/-- The padding behind `n` letters. -/
def padding (n : Nat) : List Char :=
  List.replicate ((4 - n % 4) % 4) '='

/-- The text of some bytes. -/
def encode (variant : Variant) (bytes : List UInt8) : List Char :=
  let letters := (sextets bytes).map variant.letter
  if variant.padded then letters ++ padding letters.length else letters

/-- The letters of a text without its padding, if the padding is as it must be. -/
def unpad? (variant : Variant) (text : List Char) : Option (List Char) :=
  if variant.padded then
    let letters := text.takeWhile (· != '=')
    if text = letters ++ padding letters.length then some letters else none
  else some text

/-- The bytes of a text. -/
def decode? (variant : Variant) (text : List Char) : Option (List UInt8) := do
  let letters ← unpad? variant text
  ofSextets? (← letters.mapM variant.value?)

end BagOfCells.Base64
