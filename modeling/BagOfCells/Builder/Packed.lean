import BagOfCells.Address.Wire
import BagOfCells.Cell.Make
import BagOfCells.Dictionary.Basic
import BagOfCells.Snake

/-!
# Builders on bytes

A builder keeps its bits in whole bytes, with their count beside them: the tail of the last byte is
zero. Bits that come in whole bytes are put behind it byte by byte, at once where the last byte is
full, otherwise in two parts, of which the first fills up the last byte. Then whatever lies beyond
the new count is cut off. Every other store makes bytes of what it is given and stores their first
bits.

## Main definitions

* `PackedBuilder`, `PackedStore`: the bytes and references of a cell to be made, and a store
* `PackedBuilder.bits`: the bits that are stored
* `PackedBuilder.unpack`, `Builder.pack`: the same builder without its bytes, and with them
* `PackedBuilder.storeBits`: the store of bits that all others are made of
* `PackedBuilder.storeWord`, `PackedBuilder.storeNat`, `PackedBuilder.storeVarNat`: numbers
* `PackedBuilder.storeRef`, `PackedBuilder.storeCell`, `PackedBuilder.storeSnake`: references,
  contents of other values, and chains
* `PackedBuilder.endCell`, `PackedBuilder.endExoticCell`: the cell made
* `PackedBuilder.onBits`: a store on the bits, where they are packed
-/

namespace BagOfCells

/-- The packed bits and the references of a cell to be made. -/
structure PackedBuilder where
  data : Bytes
  /-- How many bits of the bytes are stored. -/
  length : Nat
  refs : List Cell

/-- A store: appends to a builder, or fails. -/
abbrev PackedStore := EStateM CellError PackedBuilder Unit

namespace PackedBuilder

/-- The builder that holds nothing. -/
def empty : PackedBuilder := ⟨[], 0, []⟩

instance : Inhabited PackedBuilder := ⟨empty⟩

/-- The bits that are stored. -/
def bits (b : PackedBuilder) : Bits := (Bits.ofBytes b.data).take b.length

/-- The builder of the same bits and references that does not pack them. -/
def unpack (b : PackedBuilder) : Builder := ⟨b.bits, b.refs⟩

/-! ## Room -/

/-- How many bits still fit. -/
def availableBits (b : PackedBuilder) : Nat := Cell.maxBits - b.length

/-- How many whole bytes still fit. -/
def availableBytes (b : PackedBuilder) : Nat := b.availableBits / 8

/-- How many references still fit. -/
def availableRefs (b : PackedBuilder) : Nat := Cell.maxRefs - b.refs.length

/-- Whether some bits and references still fit. -/
def canFit (b : PackedBuilder) (bits refs : Nat) : Bool :=
  bits ≤ b.availableBits && refs ≤ b.availableRefs

/-- Fails unless some bits and references still fit. -/
def ensureFits (bits refs : Nat) : PackedStore := do
  let b ← get
  if bits > b.availableBits then throw (.bits bits b.availableBits)
  if refs > b.availableRefs then throw (.refs refs b.availableRefs)

/-- Runs a store, taking everything back if it fails. -/
def atomically (store : PackedStore) : PackedStore := fun b =>
  match store b with
  | .ok _ b' => .ok () b'
  | .error e _ => .error e b

/-! ## Bytes -/

/-- Changes the last byte, which must be there. -/
def changeLast (change : UInt8 → UInt8) (data : Bytes) : Except CellError Bytes := do
  let last ← Checked.minus data.length 1
  let byte ← Checked.item data last
  return data.set last (change byte)

/-- Fills up the last byte, of which `shift` bits are taken, and begins another one. -/
def pushShifted (shift : Nat) (data : Bytes) (byte : UInt8) : Except CellError Bytes := do
  let data ← changeLast (· ||| byte >>> shift.toUInt8) data
  return data ++ [byte <<< (8 - shift).toUInt8]

/-- Puts whole bytes behind some bytes, of whose last one `shift` bits are taken. -/
def fill (shift : Nat) (data bytes : Bytes) : Except CellError Bytes :=
  if shift = 0 then .ok (data ++ bytes) else bytes.foldlM (pushShifted shift) data

/-- Drops the bytes and bits beyond a length. -/
def trim (length : Nat) (data : Bytes) : Except CellError Bytes :=
  let data := data.take ((length + 7) / 8)
  if length % 8 = 0 then .ok data
  else changeLast (· &&& 0xff <<< (8 - length % 8).toUInt8) data

/-- Stores the first `count` bits of some bytes. -/
def storeBits (bytes : Bytes) (count : Nat) : PackedStore := do
  ensureFits count 0
  let size := (count + 7) / 8
  if bytes.length < size then throw (.valueOutOfRange (.dataTooShort bytes.length count))
  let b ← get
  let filled ← ofExcept (fill (b.length % 8) b.data (bytes.take size))
  let data ← ofExcept (trim (b.length + count) filled)
  set (⟨data, b.length + count, b.refs⟩ : PackedBuilder)

/-- Stores one byte. -/
def storeByte (byte : UInt8) : PackedStore := storeBits [byte] 8

/-- Stores some bytes. -/
def storeBytes (bytes : Bytes) : PackedStore := storeBits bytes (8 * bytes.length)

/-- Stores a number in a field of whole bytes. -/
def storeField (size value : Nat) : PackedStore := storeBits (Bytes.ofNat size value) (8 * size)

/-- Stores one bit. -/
def storeBit (bit : Bool) : PackedStore := storeBits [if bit then 0x80 else 0] 1

/-- Stores zeros. -/
def storeZeroes (count : Nat) : PackedStore := do
  -- no more zeros are made than a cell holds
  ensureFits count 0
  storeBits (List.replicate ((count + 7) / 8) 0) count

/-! ## Numbers -/

/-- Stores a number in `width` bits. -/
def storeNat (value width : Nat) : PackedStore := do
  if Bits.size value > width then throw (.valueOutOfRange (.unsigned value width))
  ensureFits width 0
  if width = 0 then return
  -- the number begins with the first byte, and zeros fill up the last one
  let size := (width + 7) / 8
  storeBits (Bytes.ofNat size (value <<< (8 * size - width))) width

/-- Stores a number in `width` bits, in two's complement. -/
def storeInt (value : Int) (width : Nat) : PackedStore := do
  if width = 0 then
    if value ≠ 0 then throw (.valueOutOfRange (.unsigned value 0))
  else
    if Bits.signedSize value > width then throw (.valueOutOfRange (.signed value width))
    ensureFits width 0
    storeNat (if value < 0 then Bits.bound width + value else value).natAbs width

/-- Stores the `width` low bits of a machine word. -/
def storeLowBits (word : UInt64) (width : Nat) : PackedStore := do
  if width > 64 then throw (.valueOutOfRange (.wordStore width))
  if width = 0 then return
  let aligned := if width = 64 then word else word <<< (64 - width).toUInt64
  storeBits (Bytes.ofNat 8 aligned.toNat) width

/-- Stores a machine word in `width` bits. -/
def storeWord (word : UInt64) (width : Nat) : PackedStore := do
  if width > 64 then storeNat word.toNat width
  else
    if width < 64 ∧ word >>> width.toUInt64 ≠ 0 then
      throw (.valueOutOfRange (.unsigned word.toNat width))
    storeLowBits word width

/-- Stores a signed machine word in `width` bits. -/
def storeSignedWord (word : Int64) (width : Nat) : PackedStore := do
  if width > 64 then storeInt word.toInt width
  else
    if ¬ Builder.signedWordFits word width then
      throw (.valueOutOfRange (.signed word.toInt width))
    let low := if width = 64 then word.toUInt64 else word.toUInt64 &&& (1 <<< width.toUInt64 - 1)
    storeLowBits low width

/-- Stores the length of a number in bytes, in `lengthBits` bits, then the number. -/
def storeVarNat (value lengthBits : Nat) : PackedStore := do
  let length := (Bits.size value + 7) / 8
  let limit := Bits.bound (min lengthBits 16) - 1
  if length > limit then throw (.valueOutOfRange (.variableLength value length limit))
  ensureFits (← checkedLength (lengthBits + 8 * length)) 0
  storeWord length.toUInt64 lengthBits
  storeNat value (8 * length)

/-! ## References and contents -/

/-- Stores a reference. -/
def storeRef (cell : Cell) : PackedStore := do
  let b ← get
  if b.refs.length ≥ Cell.maxRefs then throw (.refs 1 0)
  set { b with refs := b.refs ++ [cell] }

/-- Stores a presence bit, and the reference if there is one. -/
def storeMaybeRef : Option Cell → PackedStore
  | some cell => do
    ensureFits 1 1
    storeBit true
    storeRef cell
  | none => storeBit false

/-- Stores the first `count` bits of some bytes and some references, or nothing. -/
def storeContents (bytes : Bytes) (count : Nat) (refs : List Cell) : PackedStore := do
  ensureFits count refs.length
  atomically do
    storeBits bytes count
    refs.forM storeRef

/-- Stores the contents of an ordinary cell. -/
def storeCell (cell : Cell) : PackedStore :=
  if cell.isExotic then throw (.unsupportedKind cell.kind)
  else storeContents cell.data cell.bits.length cell.refs

/-- Stores what is left of a slice. -/
def storeSlice (s : Slice) : PackedStore := storeContents (Bits.pack s.bits) s.bits.length s.refs

/-- Stores what another builder holds. -/
def storeBuilder (other : PackedBuilder) : PackedStore :=
  storeContents other.data other.length other.refs

/-- Stores a dictionary: a zero bit if there is none or it is empty, otherwise a one bit and a
reference to its cell. -/
def storeDictionary (d : Option Dictionary) : PackedStore := do
  let root ← ofExcept (d.mapM Dictionary.toCell?)
  storeMaybeRef root.join

/-! ## Cells -/

/-- The cell of the given kind of what is stored. -/
def endExoticCell (b : PackedBuilder) (kind : CellKind) : Except CellError Cell :=
  Cell.ofBytes kind b.data b.length b.refs

/-- The ordinary cell of what is stored. -/
def endCell (b : PackedBuilder) : Except CellError Cell := b.endExoticCell .ordinary

/-- The ordinary cell of what one store puts into an empty builder. -/
def build (store : PackedStore) : Except CellError Cell :=
  match store empty with
  | .ok _ b => b.endCell
  | .error e _ => .error e

/-- The chain of cells that hold some links of a snake. -/
def chain : List Bytes → Except CellError (Option Cell)
  | [] => .ok none
  | link :: rest => do
    let next ← chain rest
    let cell ← build do
      storeBytes link
      next.toList.forM storeRef
    return some cell

/-- Stores a byte string, in a chain of cells what does not fit the current one. -/
def storeSnake (data : Bytes) : PackedStore := do
  let headLength := min data.length (← get).availableBytes
  let head := data.take headLength
  let tail := data.drop headLength
  if tail.isEmpty then storeBytes head
  else
    ensureFits (8 * headLength) 1
    let next ← ofExcept (chain (Snake.links tail))
    atomically do
      storeBytes head
      next.toList.forM storeRef

/-- Stores a text as a snake, behind a zero byte if it is marked. -/
def storeSnakeString (text : String) (marked : Bool) : PackedStore :=
  storeSnake ((if marked then [0] else []) ++ text.toUTF8.toList)

/-! ## Addresses -/

/-- Stores an internal address, or that there is none. -/
def storeAddress : Option Address → PackedStore
  | none => storeWord 0 2
  | some address => do
    ensureFits Address.width 0
    storeWord 0b10 2
    storeBit false
    storeSignedWord (Int64.ofInt address.workchain.toInt) 8
    storeBytes address.account.bytes

/-- Stores an external address. What precedes a part that cannot be stored stays behind. -/
def storeExternalAddress (address : ExternalAddress) : PackedStore := do
  ensureFits (← checkedLength (2 + 9 + address.length)) 0
  storeWord 0b01 2
  storeWord address.length.toUInt64 9
  storeBits address.data address.length

end PackedBuilder

/-- The builder of the same bits and references that packs them. -/
def Builder.pack (b : Builder) : PackedBuilder := ⟨Bits.pack b.bits, b.bits.length, b.refs⟩

/-- Runs a store on the bits of a builder. -/
def PackedBuilder.onBits {ε : Type} (store : EStateM ε Builder Unit) :
    EStateM ε PackedBuilder Unit := fun b =>
  match store b.unpack with
  | .ok _ c => .ok () c.pack
  | .error e c => .error e c.pack

end BagOfCells
