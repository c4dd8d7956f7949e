import BagOfCells.Address.Wire

/-!
# Keys of dictionaries

A key is a bit string of the dictionary's width, given as a number, as bits or as an address, whose
267 bits in a cell it then denotes.

## Main definitions

* `Key`: the forms of a key
* `Key.toNat key width`: the number a key spells in a dictionary of the given width
-/

namespace BagOfCells

/-- A key of a dictionary. -/
inductive Key where
  | word (value : UInt64)
  | number (value : Nat)
  /-- The first `length` bits of some bytes. -/
  | bits (data : Bytes) (length : Nat)
  | address (address : Address)

namespace Key

/-- The number the first `length` bits of some bytes spell. -/
def ofBits (data : Bytes) (length : Nat) : Except CellError Nat :=
  if data.length < (length + 7) / 8 then
    .error (.valueOutOfRange (.keyTooShort data.length length))
  else .ok (Bits.toNat ((Bits.ofBytes data).take length))

/-- The number a key spells in a dictionary with keys of `width` bits. A number is not held against
the width here. -/
def toNat (key : Key) (width : Nat) : Except CellError Nat :=
  match key with
  | word value => .ok value.toNat
  | number value => .ok value
  | bits data length =>
    if length ≠ width then .error (.valueOutOfRange (.keyLength length width))
    else ofBits data length
  | address a =>
    if width ≠ Address.width then .error (.valueOutOfRange (.addressKey width))
    else .ok (Bits.toNat a.toBits)

end Key

end BagOfCells
