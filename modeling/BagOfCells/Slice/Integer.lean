import BagOfCells.Slice.Basic

/-!
# Loading numbers

Numbers of a given width are loaded in two ways: into a machine word by shifts and masks, up to 64
bits, and as a number of any width. A number of variable length is preceded by its length in bytes.

## Main definitions

* `Slice.peekWord`, `Slice.loadWord`, `Slice.loadSignedWord`, `Slice.loadConstant`: machine words
* `Slice.loadNat`, `Slice.loadInt`: numbers of any width
* `Slice.loadVarNat`, `Slice.loadVarWord`: numbers of variable length
* `Slice.loadCoins`, `Slice.loadCoinsNat`: amounts, numbers of at most fifteen bytes
-/

namespace BagOfCells.Slice

/-! ## Machine words -/

/-- The next `width` bits as a machine word, left in place. -/
def peekWord (width : Nat) : Load UInt64 := do
  if width > 64 then throw (.valueOutOfRange (.wordLoad width))
  return Bits.toWord (← peekBits width)

/-- The next `width` bits as a machine word. -/
def loadWord (width : Nat) : Load UInt64 := do
  let word ← peekWord width
  skipBits width
  return word

/-- A word of `width` bits with its sign bit carried up to the top. -/
def signExtend (width : Nat) (word : UInt64) : Int64 :=
  if width < 64 ∧ word &&& (1 <<< (width - 1).toUInt64) ≠ 0 then
    (word ||| (0xffffffffffffffff <<< width.toUInt64)).toInt64
  else word.toInt64

/-- The next `width` bits as a signed machine word. -/
def loadSignedWord (width : Nat) : Load Int64 := do
  if width > 64 then throw (.valueOutOfRange (.signedWordLoad width))
  if width = 0 then return 0
  return signExtend width (← loadWord width)

/-- Passes over a constant of `width` bits, which is left in place when it differs. -/
def loadConstant (value : UInt64) (width : Nat) : Load Unit := do
  let actual ← peekWord width
  if actual ≠ value then throw (.tagMismatch value.toNat actual.toNat)
  skipBits width

/-! ## Numbers of any width -/

/-- The next `width` bits as a number. -/
def loadNat (width : Nat) : Load Nat := do
  return Bits.toNat (← loadBits width)

/-- The next `width` bits as a number in two's complement. -/
def loadInt (width : Nat) : Load Int := do
  if width = 0 then return 0
  -- an empty slice is short of one bit, not of `width`
  let negative ← peekWord 1
  let value ← loadNat width
  if negative = 1 then return (value : Int) - Bits.bound width else return value

/-! ## Numbers of variable length -/

/-- A length in bytes of `lengthBits` bits, then a number of that many bytes. -/
def loadVarNat (lengthBits : Nat) : Load Nat := do
  let length ← loadWord lengthBits
  loadNat (← checkedLength (8 * length.toNat))

/-- A number of variable length that fits a machine word. -/
def loadVarWord (lengthBits : Nat) : Load UInt64 := do
  let value ← loadVarNat lengthBits
  if value < Bits.bound 64 then return UInt64.ofNat value
  else throw (.valueOutOfRange (.variableWord value))

/-- An amount, read byte by byte. -/
def loadCoins : Load Nat := do
  let length ← loadWord 4
  return Bytes.toNat (← loadBytes length.toNat)

/-- An amount, read as a number of variable length. -/
def loadCoinsNat : Load Nat := loadVarNat 4

end BagOfCells.Slice
