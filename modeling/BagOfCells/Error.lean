import BagOfCells.Cell.Kind
import BagOfCells.Cell.LevelMask
import BagOfCells.Text.Hex

/-!
# Errors

What can go wrong while cells are built, read, hashed, written to bytes and read back. Each error
names its cause; the wording is in the `message` functions alone. An operation whose arithmetic
would leave its range (sixteen bits for a depth, sixty-four for a length, sixty-three for the size
of a list in memory) or whose index would leave its list has no answer at all: these are
`CellError.overflow` and `CellError.outOfBounds`, kept apart from the refusals.

## Main definitions

* `CellError`: the errors, by kind
* `LayoutFault`, `BagFault`, `TagFault`, `Malformed`: causes of malformed data
* `RangeFault`: causes of a value out of range
* `CellError.isRefusal`: whether an error is an answer
* `CellError.message`: the text of an error
-/

namespace BagOfCells

/-! ## Malformed data -/

/-- Why the bits and references of a cell do not suit its kind. -/
inductive LayoutFault where
  | dataTooShort (bytes bits : Nat)
  | typeByte (kind : CellKind)
  | prunedReferences
  | prunedTooShort
  | prunedMask (byte : UInt8)
  | prunedLength (expected actual : Nat)
  | libraryReferences
  | libraryLength (actual : Nat)
  | proofReferences
  | proofLength (actual : Nat)
  | updateReferences
  | updateLength (actual : Nat)
  | childHash
  | childDepth
  deriving DecidableEq

/-- The text of a layout fault. -/
def LayoutFault.message : LayoutFault → String
  | dataTooShort bytes bits => s!"data length {bytes} is insufficient for {bits} bits"
  | typeByte kind =>
    s!"{kind.name} cell must start with type byte {(kind.typeByte?.getD 0).toNat}"
  | prunedReferences => "pruned branch cell can't have references"
  | prunedTooShort => "pruned branch cell is too short"
  | prunedMask byte => s!"invalid pruned branch level mask {byte.toNat}"
  | prunedLength expected actual =>
    s!"pruned branch cell must have {expected} bits, got {actual}"
  | libraryReferences => "library cell can't have references"
  | libraryLength actual => s!"library cell must have 264 bits, got {actual}"
  | proofReferences => "merkle proof cell must have exactly one reference"
  | proofLength actual => s!"merkle proof cell must have 280 bits, got {actual}"
  | updateReferences => "merkle update cell must have exactly two references"
  | updateLength actual => s!"merkle update cell must have 552 bits, got {actual}"
  | childHash => "merkle cell hash does not match its child"
  | childDepth => "merkle cell depth does not match its child"

/-- Why a byte string is no bag of cells, or a list of roots has none. -/
inductive BagFault where
  | noRoots
  | unnumbered
  | rootNotSingle (count : Nat)
  | unexpectedEnd (position needed : Nat)
  | reservedFlags
  | magic (value : Nat)
  | cacheWithoutIndex
  | refSize (size : Nat)
  | offsetSize (size : Nat)
  | noCells
  | tooManyCells (count limit : Nat)
  | zeroRoots
  | tooManyRoots (count limit : Nat)
  | legacyRoots (count : Nat)
  | countsExceed (roots absent cells : Nat)
  | absentCells
  | sizeTooSmall
  | indexOrder (offset : Nat)
  | indexEnd
  | truncated (declared available : Nat)
  | tooManyRefs (cell count : Nat)
  | storedHashes (cell : Nat)
  | noTag (cell : Nat)
  | noTypeByte (cell : Nat)
  | unknownType (cell : Nat) (byte : UInt8)
  | backwardRef (cell target : Nat)
  | overrun (cell : Nat)
  | indexMismatch (cell actual expected : Nat)
  | sizeMismatch (actual declared : Nat)
  | checksum (expected actual : Nat)
  | trailingBytes (count : Nat)
  | unbuilt (cell : Nat)
  | levelMask (cell declared : Nat) (computed : LevelMask)
  | tooDeep (cell depth limit : Nat)
  | hexText
  | base64Text
  deriving DecidableEq

/-- The text of a bag fault. -/
def BagFault.message : BagFault → String
  | noRoots => "BoC needs at least one root"
  | unnumbered => "reference not found in cell map"
  | rootNotSingle count => s!"expected a single root, BoC has {count}"
  | unexpectedEnd position needed =>
    s!"unexpected end of BoC at byte {position}, need {needed} more"
  | reservedFlags => "non-zero BoC flags field is not supported"
  | magic value => "invalid BoC magic number: 0x" ++ Hex.fixed 8 value
  | cacheWithoutIndex => "cache bits require an index"
  | refSize size => s!"ref size must be in 1..=4, got {size}"
  | offsetSize size => s!"offset size must be in 1..=8, got {size}"
  | noCells => "cell count is zero"
  | tooManyCells count limit => s!"BoC has {count} cells, limit is {limit}"
  | zeroRoots => "root count is zero"
  | tooManyRoots count limit => s!"BoC has {count} roots, limit is {limit}"
  | legacyRoots count => s!"indexed BoC must have a single root, got {count}"
  | countsExceed roots absent cells =>
    s!"roots ({roots}) + absent ({absent}) exceed cells ({cells})"
  | absentCells => "absent cells are not supported"
  | sizeTooSmall => "total cells size is too small for the cell count"
  | indexOrder offset => s!"BoC index is not monotonic at offset {offset}"
  | indexEnd => "BoC index does not cover the total cells size"
  | truncated declared available =>
    s!"BoC truncated: {declared} bytes of cells declared, {available} available"
  | tooManyRefs cell count => s!"cell {cell} has {count} refs, at most 4 allowed"
  | storedHashes cell => s!"cell {cell} carries stored hashes, which are not supported"
  | noTag cell => s!"cell {cell} is missing its padding tag"
  | noTypeByte cell => s!"exotic cell {cell} has no type byte"
  | unknownType cell byte =>
    s!"exotic cell {cell} has unknown type 0x" ++ Hex.fixed 2 byte.toNat
  | backwardRef cell target =>
    s!"cell {cell} references cell {target}, references must point forward"
  | overrun cell => s!"cell {cell} overruns the declared cells size"
  | indexMismatch cell actual expected =>
    s!"cell {cell} ends at {actual}, index says {expected}"
  | sizeMismatch actual declared =>
    s!"cells occupy {actual} bytes, header declares {declared}"
  | checksum expected actual =>
    "CRC32C mismatch: expected 0x" ++ Hex.fixed 8 expected ++ ", got 0x" ++ Hex.fixed 8 actual
  | trailingBytes count => s!"{count} trailing bytes after BoC"
  | unbuilt cell => s!"cell {cell} is not built yet"
  | levelMask cell declared computed =>
    s!"cell {cell} declares level mask {declared}, computed {computed.text}"
  | tooDeep cell depth limit => s!"cell {cell} depth {depth} exceeds limit {limit}"
  | hexText => "failed to decode hex"
  | base64Text => "failed to decode base64"

/-- Why a text is no tag of a field. -/
inductive TagFault where
  | unknown
  | width (digits : String)
  | widthTooLarge (width : Nat)
  | constantLength (bits : Nat)
  | constant (digits : String)
  deriving DecidableEq

/-- The text of a tag fault. -/
def TagFault.message : TagFault → String
  | unknown => "unknown tag"
  | width digits => s!"invalid width `{digits}`"
  | widthTooLarge n => s!"width {n} exceeds 1023 bits"
  | constantLength bits => s!"constant must have 1..=64 bits, got {bits}"
  | constant digits => s!"invalid constant `{digits}`"

/-- Why data are malformed. -/
inductive Malformed where
  | layout (fault : LayoutFault)
  | bag (fault : BagFault)
  | leftover (bits refs : Nat)
  | snakeAlignment (bits : Nat)
  | snakeText
  | anycast
  | externalAddress
  | variableAddress
  | noAddress
  | labelTooLong (remaining : Nat)
  | labelExceeds (length remaining : Nat)
  | fork (bits refs : Nat)
  | tag (text : String) (fault : TagFault)
  | nestedRecord
  | afterRest (field last : String)
  deriving DecidableEq

/-- The text of what is malformed. -/
def Malformed.message : Malformed → String
  | layout fault => fault.message
  | bag fault => fault.message
  | leftover bits refs => s!"{bits} bits and {refs} refs left unparsed"
  | snakeAlignment bits => s!"snake data must be byte aligned, got {bits} bits"
  | snakeText => "snake string is not UTF-8"
  | anycast => "anycast addresses are not supported"
  | externalAddress => "expected internal address, got addr_extern"
  | variableAddress => "addr_var is not supported"
  | noAddress => "expected an internal address, got addr_none"
  | labelTooLong remaining => s!"dict label longer than remaining {remaining} key bits"
  | labelExceeds length remaining =>
    s!"dict label of {length} bits exceeds remaining {remaining} key bits"
  | fork bits refs =>
    s!"dict fork must hold exactly two refs and no data, got {bits} bits and {refs} refs"
  | tag text fault => s!"field tag `{text}`: " ++ fault.message
  | nestedRecord => "can't hold a nested record"
  | afterRest field last =>
    s!"field `{field}` follows `{last}`, which takes the rest of the cell"

/-! ## Values out of range -/

/-- Why a value is out of range. -/
inductive RangeFault where
  | dataTooShort (bytes bits : Nat)
  | wordStore (bits : Nat)
  | wordLoad (bits : Nat)
  | signedWordLoad (bits : Nat)
  | unsigned (value : Int) (bits : Nat)
  | signed (value : Int) (bits : Nat)
  | variableLength (value needed limit : Nat)
  | variableWord (value : Nat)
  | keyLength (bits expected : Nat)
  | addressKey (expected : Nat)
  | keyTooShort (bytes bits : Nat)
  | keyWidth (key bits : Nat)
  | dictionaryWidth (actual expected : Nat)
  | splitDepth (depth : Nat)
  | fieldBits (field : String) (bits bytes : Nat)
  | fieldKeys (field : String) (expected actual : Nat)
  | fieldValue (field : String)
  | fieldCell (field : String)
  | fieldRecord (field : String)
  deriving DecidableEq

/-- The text of a value out of range. -/
def RangeFault.message : RangeFault → String
  | dataTooShort bytes bits => s!"{bytes} bytes can't hold {bits} bits"
  | wordStore bits => s!"can't store {bits} bits from u64"
  | wordLoad bits => s!"can't load {bits} bits into u64"
  | signedWordLoad bits => s!"can't load {bits} bits into i64"
  | unsigned value bits => s!"{value} doesn't fit into {bits} bits"
  | signed value bits => s!"{value} doesn't fit into {bits} signed bits"
  | variableLength value needed limit =>
    s!"{value} needs {needed} bytes, at most {limit} allowed"
  | variableWord value => s!"VarUInteger {value} exceeds u64"
  | keyLength bits expected => s!"key has {bits} bits, dictionary expects {expected}"
  | addressKey expected => s!"address keys require 267 bit keys, dictionary has {expected}"
  | keyTooShort bytes bits => s!"{bytes} bytes can't hold a {bits} bit key"
  | keyWidth key bits => s!"key {key} doesn't fit into {bits} bits"
  | dictionaryWidth actual expected =>
    s!"dictionary has {actual} bit keys, expected {expected}"
  | splitDepth depth => s!"split depth {depth} doesn't fit into 5 bits"
  | fieldBits field bits bytes => s!"field `{field}` needs {bits} bits, got {bytes} bytes"
  | fieldKeys field expected actual =>
    s!"field `{field}` expects {expected} bit keys, dictionary has {actual}"
  | fieldValue field => s!"field `{field}`"
  | fieldCell field => s!"field `{field}` expects a cell"
  | fieldRecord field => s!"field `{field}` expects a record"

/-! ## Errors -/

/-- What a cell has a limited number of. -/
inductive Capacity where
  | bits
  | refs
  deriving DecidableEq

/-- The word for what is limited. -/
def Capacity.text : Capacity → String
  | bits => "bits"
  | refs => "refs"

/-- An error of an operation on cells. -/
inductive CellError where
  /-- More is stored than a cell has room for. -/
  | capacityExceeded (requested available : Nat) (unit : Capacity)
  /-- More bits are read than there are. -/
  | underflow (requested available : Nat)
  /-- The data have not the form they should have. -/
  | malformed (cause : Malformed)
  /-- A constant is another one than expected. -/
  | tagMismatch (expected actual : Nat)
  | referenceOutOfRange (index count : Nat)
  | unsupportedKind (kind : CellKind)
  /-- A value does not fit where it is put. -/
  | valueOutOfRange (cause : RangeFault)
  | missingField (field : String)
  /-- A depth left sixteen bits, a length sixty-four or the size of a list sixty-three: there is no
  answer. -/
  | overflow
  /-- An index left its list: there is no answer. -/
  | outOfBounds
  deriving DecidableEq

namespace CellError

/-- Too many bits. -/
def bits (requested available : Nat) : CellError :=
  .capacityExceeded requested available .bits

/-- Too many references. -/
def refs (requested available : Nat) : CellError :=
  .capacityExceeded requested available .refs

/-- A cell that does not suit its kind. -/
def layout (fault : LayoutFault) : CellError :=
  .malformed (.layout fault)

/-- A byte string that is no bag. -/
def bag (fault : BagFault) : CellError :=
  .malformed (.bag fault)

/-- Whether an error refuses the arguments; otherwise there is no answer. -/
def isRefusal : CellError → Bool
  | overflow | outOfBounds => false
  | _ => true

def message : CellError → String
  | capacityExceeded requested available unit =>
    s!"cell capacity exceeded: need {requested} {unit.text}, {available} available"
  | underflow requested available =>
    s!"not enough bits remaining: requested {requested}, available {available}"
  | malformed cause => "malformed data: " ++ cause.message
  | tagMismatch expected actual =>
    "tag mismatch: expected 0x" ++ Hex.fixed 1 expected ++ ", got 0x" ++ Hex.fixed 1 actual
  | referenceOutOfRange index count =>
    s!"reference index {index} out of range ({count} available)"
  | unsupportedKind kind => s!"operation is not supported for {kind.name} cells"
  | valueOutOfRange cause => "value out of range: " ++ cause.message
  | missingField field => s!"missing field `{field}`"
  | overflow => "arithmetic overflow"
  | outOfBounds => "index out of bounds"

end CellError

end BagOfCells
