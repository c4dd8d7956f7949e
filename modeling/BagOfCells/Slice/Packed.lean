import BagOfCells.Builder.Packed

/-!
# Slices on bytes

A slice is a cell and two positions in it, of the bits and of the references that have been read.
The bits of the cell lie in whole bytes, so bits that are asked for in bytes are put together, where
the position is within a byte, from the low part of each byte and the high part of the one behind
it; there is none behind the last byte. Machine words are put together bit by bit. A load looks
first whether as much is left as it is asked for.

## Main definitions

* `PackedSlice`, `PackedLoad`: a cell with its positions, and a load
* `PackedSlice.unpack`, `Slice.pack`: the rest that is left, and the positions of a rest
* `PackedSlice.peekBits`, `PackedSlice.loadBits`: bits in bytes, which other loads are made of
* `PackedSlice.peekWord`, `PackedSlice.loadNat`, `PackedSlice.loadVarNat`: numbers
* `PackedSlice.loadRef`, `PackedSlice.loadMaybeRef`, `PackedSlice.loadDictionary`: references
* `PackedSlice.toCell`, `PackedSlice.loadSnake`, `PackedSlice.endParse`: all that is left
-/

namespace BagOfCells

/-- A cell, and how many of its bits and references have been read. -/
structure PackedSlice where
  cell : Cell
  bitPosition : Nat
  refPosition : Nat

/-- A load: moves the positions on, or fails. -/
abbrev PackedLoad := EStateM CellError PackedSlice

namespace PackedSlice

/-- A slice over a cell of any kind. -/
def ofCell (cell : Cell) : PackedSlice := ⟨cell, 0, 0⟩

/-- A slice over an ordinary cell; an exotic one holds no data of the user. -/
def ordinary (cell : Cell) : Except CellError PackedSlice :=
  if cell.isExotic then .error (.unsupportedKind cell.kind) else .ok (ofCell cell)

/-- What is left. -/
def unpack (s : PackedSlice) : Slice :=
  ⟨s.cell, s.cell.bits.drop s.bitPosition, s.cell.refs.drop s.refPosition⟩

/-- How many bits are left. -/
def remainingBits : PackedLoad Nat := do
  let s ← get
  ofExcept (Checked.minus s.cell.bits.length s.bitPosition)

/-- How many references are left. -/
def remainingRefs : PackedLoad Nat := do
  let s ← get
  ofExcept (Checked.minus s.cell.refs.length s.refPosition)

/-! ## Bits -/

/-- Fails unless `n` bits are left. -/
def ensureBits (n : Nat) : PackedLoad Unit := do
  let left ← remainingBits
  if n > left then throw (.underflow n left)

/-- Moves on by `n` bits. -/
def advance (n : Nat) : PackedLoad Unit := do
  let s ← get
  let position ← ofExcept (Checked.word (s.bitPosition + n))
  set { s with bitPosition := position }

/-- The bit at a position. -/
def bitAt (position : Nat) : PackedLoad Bool := do
  let byte ← ofExcept (Checked.item (← get).cell.data (position / 8))
  return (byte >>> (7 - position % 8).toUInt8) &&& 1 == 1

/-- The eight bits that begin behind `shift` bits of the byte at an index. -/
def byteAt (data : Bytes) (shift index : Nat) : Except CellError UInt8 := do
  let high ← Checked.item data index
  -- the last byte has none behind it
  let low := if shift = 0 then 0 else
    (data[index + 1]?).elim 0 fun next => next >>> (8 - shift).toUInt8
  return high <<< shift.toUInt8 ||| low

/-- The next `n` bits in whole bytes, left in place. -/
def peekBits (n : Nat) : PackedLoad Bytes := do
  ensureBits n
  let s ← get
  let bytes ← ofExcept ((List.range ((n + 7) / 8)).mapM fun i =>
    byteAt s.cell.data (s.bitPosition % 8) (s.bitPosition / 8 + i))
  ofExcept (PackedBuilder.trim n bytes)

/-- The next `n` bits in whole bytes. -/
def loadBits (n : Nat) : PackedLoad Bytes := do
  let bytes ← peekBits n
  advance n
  return bytes

/-- The next bit. -/
def loadBit : PackedLoad Bool := do
  ensureBits 1
  let bit ← bitAt (← get).bitPosition
  advance 1
  return bit

/-- The next `n` bytes. -/
def loadBytes (n : Nat) : PackedLoad Bytes := do
  loadBits (← checkedLength (8 * n))

/-- All bits that are left. -/
def loadRemainingBits : PackedLoad Bytes := do
  loadBits (← remainingBits)

/-- Passes over `n` bits. -/
def skipBits (n : Nat) : PackedLoad Unit := do
  ensureBits n
  advance n

/-! ## Numbers -/

/-- The next `width` bits as a machine word, left in place. -/
def peekWord (width : Nat) : PackedLoad UInt64 := do
  if width > 64 then throw (.valueOutOfRange (.wordLoad width))
  ensureBits width
  let start := (← get).bitPosition
  (List.range width).foldlM (fun word i => do
    let bit ← bitAt (start + i)
    return (word <<< 1) ||| bit.toUInt64) 0

/-- The next `width` bits as a machine word. -/
def loadWord (width : Nat) : PackedLoad UInt64 := do
  let word ← peekWord width
  advance width
  return word

/-- The next `width` bits as a signed machine word. -/
def loadSignedWord (width : Nat) : PackedLoad Int64 := do
  if width > 64 then throw (.valueOutOfRange (.signedWordLoad width))
  if width = 0 then return 0
  return Slice.signExtend width (← loadWord width)

/-- The next `width` bits as a number. -/
def loadNat (width : Nat) : PackedLoad Nat := do
  if width = 0 then return 0
  let bytes ← loadBits width
  -- zeros fill up the last byte
  let tail ← ofExcept (Checked.minus (8 * bytes.length) width)
  return Bytes.toNat bytes >>> tail

/-- The next `width` bits as a number in two's complement. -/
def loadInt (width : Nat) : PackedLoad Int := do
  if width = 0 then return 0
  -- an empty slice is short of one bit, not of `width`
  let negative ← peekWord 1
  let value ← loadNat width
  if negative = 1 then return (value : Int) - Bits.bound width else return value

/-- A length in bytes of `lengthBits` bits, then a number of that many bytes. -/
def loadVarNat (lengthBits : Nat) : PackedLoad Nat := do
  let length ← loadWord lengthBits
  loadNat (← checkedLength (8 * length.toNat))

/-- A number of variable length that fits a machine word. -/
def loadVarWord (lengthBits : Nat) : PackedLoad UInt64 := do
  let value ← loadVarNat lengthBits
  if value < Bits.bound 64 then return UInt64.ofNat value
  else throw (.valueOutOfRange (.variableWord value))

/-- An amount, read byte by byte. -/
def loadCoins : PackedLoad Nat := do
  let length ← loadWord 4
  return Bytes.toNat (← loadBytes length.toNat)

/-! ## References -/

/-- The reference `index` places ahead, left in place. -/
def peekRef (index : Nat) : PackedLoad Cell := do
  let left ← remainingRefs
  if index ≥ left then throw (.referenceOutOfRange index left)
  let s ← get
  ofExcept (Checked.item s.cell.refs (s.refPosition + index))

/-- The next reference. -/
def loadRef : PackedLoad Cell := do
  let ref ← peekRef 0
  modify fun s => { s with refPosition := s.refPosition + 1 }
  return ref

/-- Passes over `n` references. -/
def skipRefs (n : Nat) : PackedLoad Unit := do
  let left ← remainingRefs
  if n > left then
    let last ← ofExcept (Checked.minus n 1)
    throw (.referenceOutOfRange last left)
  modify fun s => { s with refPosition := s.refPosition + n }

/-- A presence bit, then a reference if it is set. -/
def loadMaybeRef : PackedLoad (Option Cell) := do
  if ← loadBit then return some (← loadRef) else return none

/-- The next `count` references. -/
def loadRefs : (count : Nat) → PackedLoad (List Cell)
  | 0 => return []
  | count + 1 => do
    let ref ← loadRef
    return ref :: (← loadRefs count)

/-- All references that are left. -/
def loadRemainingRefs : PackedLoad (List Cell) := do
  loadRefs (← remainingRefs)

/-- A dictionary with keys of `width` bits. -/
def loadDictionary (width : Nat) : PackedLoad Dictionary := do
  match ← loadMaybeRef with
  | none => return .empty width
  | some root => ofExcept (Dictionary.ofCell width root)

/-! ## The whole slice -/

/-- Starts again at the front of the cell. -/
def reset : PackedLoad Unit :=
  modify fun s => ofCell s.cell

/-- Everything that is left, as an ordinary cell; an ordinary cell of which nothing has been read
is returned as it is. -/
def toCell : PackedLoad Cell := do
  let s ← get
  if s.bitPosition = 0 ∧ s.refPosition = 0 ∧ s.cell.isExotic = false then
    set ({ s with bitPosition := s.cell.bits.length, refPosition := s.cell.refs.length } :
      PackedSlice)
    return s.cell
  else
    let count ← remainingBits
    let bytes ← loadBits count
    let refs ← loadRemainingRefs
    ofExcept <| PackedBuilder.build do
      PackedBuilder.storeBits bytes count
      refs.forM PackedBuilder.storeRef

/-- Fails unless everything has been read. -/
def endParse : PackedLoad Unit := do
  let bits ← remainingBits
  let refs ← remainingRefs
  if ¬ (bits = 0 ∧ refs = 0) then throw (.malformed (.leftover bits refs))

/-! ## Snakes -/

/-- The bytes that are left, which must be whole. -/
def loadWholeBytes : PackedLoad Bytes := do
  let left ← remainingBits
  if left % 8 ≠ 0 then throw (.malformed (.snakeAlignment left))
  loadBytes (left / 8)

/-- The bytes of a chain of ordinary cells, linked by their first references. -/
def chain : Cell → Except CellError Bytes
  | .mk kind bits refs mask hashes => do
    let s ← ordinary (.mk kind bits refs mask hashes)
    match loadWholeBytes s with
    | .error e _ => .error e
    | .ok head _ =>
      match refs with
      | [] => return head
      | next :: _ => return head ++ (← chain next)

/-- The bytes that are left of a snake, which begins in the slice. -/
def loadSnake : PackedLoad Bytes := do
  let head ← loadWholeBytes
  if (← remainingRefs) = 0 then return head
  else
    let next ← loadRef
    return head ++ (← ofExcept (chain next))

/-- The text that is left of a snake. -/
def loadSnakeString : PackedLoad String := do
  let data ← loadSnake
  match String.fromUTF8? ⟨data.toArray⟩ with
  | some text => return text
  | none => throw (.malformed .snakeText)

/-! ## Addresses -/

/-- An internal address, or none. -/
def loadAddress : PackedLoad (Option Address) := do
  let form ← peekWord 2
  if form = 0b00 then
    skipBits 2
    return none
  else if form = 0b10 then
    ensureBits Address.width
    skipBits 2
    if ← loadBit then throw (.malformed .anycast)
    let workchain ← loadSignedWord 8
    let account ← loadBytes 32
    return some (.ofParts workchain.toInt8 (.ofBytes account))
  else if form = 0b01 then throw (.malformed .externalAddress)
  else throw (.malformed .variableAddress)

/-- An external address. -/
def loadExternalAddress : PackedLoad ExternalAddress := do
  let form ← peekWord 2
  if form ≠ 0b01 then throw (.tagMismatch 0b01 form.toNat)
  skipBits 2
  let length ← loadWord 9
  let data ← loadBits length.toNat
  return ⟨data, length.toNat⟩

end PackedSlice

/-- A rest of a cell by its positions. -/
def Slice.pack (s : Slice) : PackedSlice := ⟨s.cell, s.bitPosition, s.refPosition⟩

/-- Runs a load on what is left of a slice. -/
def PackedSlice.onBits {α : Type} (load : Load α) : PackedLoad α := fun s =>
  match load s.unpack with
  | .ok a rest => .ok a rest.pack
  | .error e rest => .error e rest.pack

end BagOfCells
