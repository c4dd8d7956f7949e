import BagOfCells.Bag.Encode
import BagOfCells.Checked

/-!
# The header of a bag

Everything in front of the records is read field by field. Two older forms, with magic numbers of
their own, always have an index and exactly one root, which is the first cell and is not listed; the
byte behind their magic number is the size of cell numbers alone.

## Main definitions

* `Bag.Input`, `Bag.Read α`: bytes still to be read, and a reader of them
* `Bag.readBytes`, `Bag.readNat`, `Bag.readSince`: bytes, numbers, and the way come
* `Bag.Header`, `Bag.readHeader`: what the header says
* `Bag.readIndex`: the ends of the records, as listed
-/

namespace BagOfCells.Bag

/-- The bytes still to be read, and how many have been. -/
structure Input where
  rest : Bytes
  position : Nat

/-- A reader of bytes. -/
abbrev Read := EStateM CellError Input

/-- Fails for a cause. -/
def refuse {α : Type} (fault : BagFault) : Read α := throw (.bag fault)

/-- Fails for a cause unless a condition holds. -/
def ensure (condition : Bool) (fault : BagFault) : Read Unit :=
  if condition then pure () else refuse fault

/-- The next `n` bytes. -/
def readBytes (n : Nat) : Read Bytes := do
  let input ← get
  let bytes := input.rest.take n
  if bytes.length < n then refuse (.unexpectedEnd input.position n)
  let position ← ofExcept (Checked.word (input.position + n))
  set (Input.mk (input.rest.drop n) position)
  return bytes

/-- The next `size` bytes as a number. -/
def readNat (size : Nat) : Read Nat := return Bytes.toNat (← readBytes size)

/-- How many bytes have been read since a position. -/
def readSince (start : Nat) : Read Nat := do
  let input ← get
  ofExcept (Checked.minus input.position start)

/-- How many bytes are left. -/
def bytesLeft : Read Nat := return (← get).rest.length

/-! ## The header -/

/-- The two magic numbers of the older forms, without and with a checksum. -/
def legacyMagic : Nat := 0x68ff65f3

@[inherit_doc legacyMagic]
def legacyCrcMagic : Nat := 0xacc3a728

/-- What the magic number and the byte behind it say. -/
structure Preamble where
  /-- Whether the bag is of an older form. -/
  legacy : Bool
  hasIndex : Bool
  hasCrc : Bool
  /-- Whether the low bit of each index entry is free. -/
  hasCacheBits : Bool
  /-- The size of cell numbers and counts. -/
  refSize : Nat

/-- The meaning of a magic number and the byte behind it. -/
def preamble (magicNumber byte : Nat) : Except CellError Preamble :=
  if magicNumber = magic then
    if byte.testBit 3 || byte.testBit 4 then .error (.bag .reservedFlags)
    else .ok ⟨false, byte.testBit 7, byte.testBit 6, byte.testBit 5, byte % 8⟩
  else if magicNumber = legacyMagic then .ok ⟨true, true, false, false, byte⟩
  else if magicNumber = legacyCrcMagic then .ok ⟨true, true, true, false, byte⟩
  else .error (.bag (.magic magicNumber))

/-- What the header says; `total` is the size of all records together, and `roots` are numbers of
cells. -/
structure Header extends Preamble where
  offsetSize : Nat
  cells : Nat
  total : Nat
  roots : List Nat

/-- Something read several times. -/
def readMany {α : Type} (read : Read α) : Nat → Read (List α)
  | 0 => return []
  | n + 1 => do
    let first ← read
    return first :: (← readMany read n)

/-- A number of one of `count` cells. -/
def readCellNumber (refSize count : Nat) : Read Nat := do
  let n ← readNat refSize
  if n ≥ count then throw (.referenceOutOfRange n count)
  return n

/-- The magic number and the byte behind it. -/
def readPreamble : Read Preamble := do
  -- the byte is read before the magic number is looked at
  let magicNumber ← readNat 4
  let byte ← readNat 1
  let form ← ofExcept (preamble magicNumber byte)
  ensure (form.hasIndex || !form.hasCacheBits) .cacheWithoutIndex
  ensure (1 ≤ form.refSize && form.refSize ≤ 4) (.refSize form.refSize)
  return form

/-- The counts of cells, roots and absent cells must keep the limits and fit each other. -/
def checkCounts (config : Config) (legacy : Bool) (cells roots absent : Nat) : Read Unit := do
  ensure (cells ≠ 0) .noCells
  ensure (cells ≤ config.maxCells) (.tooManyCells cells config.maxCells)
  ensure (roots ≠ 0) .zeroRoots
  ensure (roots ≤ config.maxRoots) (.tooManyRoots roots config.maxRoots)
  ensure (!legacy || roots == 1) (.legacyRoots roots)
  let listed ← ofExcept (Checked.word (roots + absent))
  ensure (listed ≤ cells) (.countsExceed roots absent cells)
  -- the grammar has absent cells, the decoder does not support them
  ensure (absent == 0) .absentCells

/-- The header. -/
def readHeader (config : Config) : Read Header := do
  let form ← readPreamble
  let offsetSize ← readNat 1
  ensure (1 ≤ offsetSize && offsetSize ≤ 8) (.offsetSize offsetSize)
  let cells ← readNat form.refSize
  let roots ← readNat form.refSize
  let absent ← readNat form.refSize
  checkCounts config form.legacy cells roots absent
  let total ← readNat offsetSize
  -- every record has two descriptors
  ensure (2 * cells ≤ total) .sizeTooSmall
  -- a bag of an older form does not list its root
  let numbers ← if form.legacy then pure [0] else readMany (readCellNumber form.refSize cells) roots
  return { form with offsetSize, cells, total, roots := numbers }

/-! ## The index -/

/-- The next `count` entries of the index, which ascend from `previous` to the total size. -/
def readEntries (header : Header) : (count previous : Nat) → Read (List Nat)
  | 0, previous => do
    ensure (previous == header.total) .indexEnd
    return []
  | count + 1, previous => do
    let entry ← readNat header.offsetSize
    -- with cache bits the low bit of an entry is a flag that nothing asks for
    let offset := if header.hasCacheBits then entry / 2 else entry
    ensure (previous ≤ offset && offset ≤ header.total) (.indexOrder offset)
    return offset :: (← readEntries header count offset)

/-- The index, if there is one. -/
def readIndex (header : Header) : Read (Option (List Nat)) := do
  if header.hasIndex then return some (← readEntries header header.cells 0) else return none

end BagOfCells.Bag
