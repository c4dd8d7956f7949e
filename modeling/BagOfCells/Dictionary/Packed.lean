import BagOfCells.Slice.Packed

/-!
# Labels and keys on bytes

The parts of a dictionary that touch the bytes of builders and slices. A label is stored bit by bit
behind the fields of its form and read bit by bit; its length is a machine word. A key that is given
as bits is the number of its whole bytes, shifted; an address is a key by the bytes of its cell.

## Main definitions

* `PackedBuilder.storeLabel`, `PackedSlice.loadLabel`: a label, in the bytes of a cell
* `Address.cellBytes`: the bytes of the cell of an address
* `Key.ofPacked`, `Key.toNatPacked`: the number of a key, from bytes
-/

namespace BagOfCells

namespace PackedBuilder

/-- Stores the label of an edge with `m` bits of the key still to come, in its shortest form. -/
def storeLabel (m : Nat) (label : Bits) : PackedStore :=
  match Label.form m label with
  | .same => do
    storeWord 0b11 2
    storeBit (label.headD false)
    storeWord label.length.toUInt64 (Label.lengthWidth m)
  | .long => do
    storeWord 0b10 2
    storeWord label.length.toUInt64 (Label.lengthWidth m)
    label.forM storeBit
  | .short => do
    storeBit false
    (List.replicate label.length true).forM storeBit
    storeBit false
    label.forM storeBit

end PackedBuilder

namespace PackedSlice

/-- A length of at most `m` in unary, of which `m - left` has been read. -/
def loadUnary (m : Nat) : (left : Nat) → PackedLoad Nat
  | 0 => do
    if ← loadBit then throw (.malformed (.labelTooLong m)) else return m
  | left + 1 => do
    if ← loadBit then loadUnary m left else return m - (left + 1)

/-- Some bits, one after the other. -/
def loadEach : Nat → PackedLoad Bits
  | 0 => return []
  | n + 1 => do
    let bit ← loadBit
    return bit :: (← loadEach n)

/-- A length of at most `m` in binary. -/
def loadLength (m : Nat) : PackedLoad Nat := do
  let n ← loadWord (Label.lengthWidth m)
  if n.toNat > m then throw (.malformed (.labelExceeds n.toNat m))
  return n.toNat

/-- The label of an edge with `m` bits of the key still to come. -/
def loadLabel (m : Nat) : PackedLoad Bits := do
  if ← loadBit then
    if ← loadBit then
      let bit ← loadBit
      return List.replicate (← loadLength m) bit
    else loadEach (← loadLength m)
  else loadEach (← loadUnary m m)

end PackedSlice

/-- The bytes of the cell of an address. -/
def Address.cellBytes (address : Address) : Except CellError Bytes := do
  let cell ← PackedBuilder.build (PackedBuilder.storeAddress (some address))
  match PackedSlice.loadBits Address.width (.ofCell cell) with
  | .ok bytes _ => .ok bytes
  | .error e _ => .error e

namespace Key

/-- The number the first `length` bits of some bytes spell. -/
def ofPacked (data : Bytes) (length : Nat) : Except CellError Nat := do
  let needed := (length + 7) / 8
  if data.length < needed then throw (.valueOutOfRange (.keyTooShort data.length length))
  -- the bits behind the key, in its last byte
  let tail ← Checked.minus (8 * needed) length
  return Bytes.toNat (data.take needed) >>> tail

/-- The number a key spells in a dictionary with keys of `width` bits, from bytes. -/
def toNatPacked (key : Key) (width : Nat) : Except CellError Nat :=
  match key with
  | word value => .ok value.toNat
  | number value => .ok value
  | bits data length =>
    if length ≠ width then .error (.valueOutOfRange (.keyLength length width))
    else ofPacked data length
  | address a =>
    if width ≠ Address.width then .error (.valueOutOfRange (.addressKey width))
    else do ofPacked (← a.cellBytes) Address.width

end Key

end BagOfCells
