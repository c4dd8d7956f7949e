import BagOfCells.Bag.Header
import BagOfCells.Cell.Make
import BagOfCells.Text.Blank

/-!
# Reading bags

The records are read in order, held against the index and the announced size, and followed by the
checksum and the end of the bytes. Only then are the cells made, from the last record to the first,
since a record refers only to later ones.

## Main definitions

* `Bag.Record`, `Bag.readRecord`: what a record says
* `Bag.readRecordsFrom`, `Bag.readBag`: all records; with the header, the checksum and the end
* `Bag.recordCell`, `Bag.assemble`: the cells of some records, equal ones shared
* `Bag.decode`, `Bag.decodeRoot`, `Bag.decodeHex`, `Bag.decodeBase64`: the roots of a bag
-/

namespace BagOfCells.Bag

/-! ## Records -/

/-- What a record says. -/
structure Record where
  kind : CellKind
  mask : LevelMask
  /-- The data, closed by the completion tag. -/
  data : Bytes
  /-- How many bits stand in front of the tag. -/
  bits : Nat
  /-- The numbers of the cells referred to. -/
  refs : List Nat

/-- How many bits the data of record `own` hold, given the second descriptor byte. -/
def recordBits (own descriptor : Nat) (data : Bytes) : Read Nat := do
  if descriptor % 2 = 0 then return 8 * data.length
  -- the tag is the last one bit of the last byte
  let last ← ofExcept (Checked.minus data.length 1 >>= Checked.item data)
  ensure (last != 0) (.noTag own)
  ofExcept (Checked.minus (8 * data.length) (Bits.trailingZeros last + 1))

/-- The kind of record `own`: that named by the first byte of an exotic one. -/
def recordKind (own : Nat) (exotic : Bool) (bits : Nat) (data : Bytes) : Read CellKind := do
  if !exotic then return .ordinary
  ensure (8 ≤ bits) (.noTypeByte own)
  let byte ← ofExcept (Checked.item data 0)
  match CellKind.ofTypeByte? byte with
  | some kind => return kind
  | none => refuse (.unknownType own byte)

/-- The number of a cell that record `own` refers to. -/
def readRef (header : Header) (own : Nat) : Read Nat := do
  let target ← readCellNumber header.refSize header.cells
  ensure (own < target) (.backwardRef own target)
  return target

/-- Record number `own`. -/
def readRecord (header : Header) (own : Nat) : Read Record := do
  -- the first descriptor: three bits of references, exotic, with hashes, three bits of mask
  let first ← readNat 1
  let second ← readNat 1
  let refs := first % 8
  ensure (refs ≤ Cell.maxRefs) (.tooManyRefs own refs)
  ensure (!first.testBit 4) (.storedHashes own)
  let data ← readBytes ((second + 1) / 2)
  let bits ← recordBits own second data
  let kind ← recordKind own (first.testBit 3) bits data
  let targets ← readMany (readRef header own) refs
  return ⟨kind, .ofNat (first / 32), data, bits, targets⟩

/-- Holds the end of record `own` against the index, if there is one. -/
def checkEntry (index : Option (List Nat)) (own offset : Nat) : Read Unit := do
  match index with
  | none => return ()
  | some entries =>
    let entry ← ofExcept (Checked.item entries own)
    ensure (entry == offset) (.indexMismatch own offset entry)

/-- The next records, from number `own` on; `start` is where the records begin. -/
def readRecordsFrom (header : Header) (index : Option (List Nat)) (start : Nat) :
    (count own : Nat) → Read (List Record)
  | 0, _ => do
    let size ← readSince start
    ensure (size == header.total) (.sizeMismatch size header.total)
    return []
  | count + 1, own => do
    let record ← readRecord header own
    let offset ← readSince start
    ensure (offset ≤ header.total) (.overrun own)
    checkEntry index own offset
    return record :: (← readRecordsFrom header index start count (own + 1))

/-- The checksum, if there is one; `data` are all bytes of the bag. -/
def readCrc (config : Config) (header : Header) (data : Bytes) : Read Unit := do
  if header.hasCrc then
    let position ← readSince 0
    let expected := Bytes.toNatReversed (← readBytes 4)
    if config.verifyCrc then
      let body ← ofExcept (Checked.slice data 0 position)
      let actual := (Crc32c.checksum body).toNat
      ensure (expected == actual) (.checksum expected actual)

/-- The header and the records of a bag, which must end where the bytes do. -/
def readBag (config : Config) (data : Bytes) : Read (Header × List Record) := do
  let header ← readHeader config
  let index ← readIndex header
  -- the announced size is held against what is there before any record is read
  let start ← readSince 0
  let available ← bytesLeft
  ensure (header.total + (if header.hasCrc then 4 else 0) ≤ available)
    (.truncated header.total available)
  let records ← readRecordsFrom header index start header.cells 0
  readCrc config header data
  let left ← bytesLeft
  ensure (left == 0) (.trailingBytes left)
  return (header, records)

/-! ## Cells -/

/-- The cell that record `own` refers to as `target`, among the cells of the later records. -/
def laterCell (later : List Cell) (own target : Nat) : Except CellError Cell :=
  -- the first of the later cells is that of record `own + 1`
  if target ≤ own then .error (.bag (.unbuilt target))
  else Checked.item later (target - own - 1)

/-- The one of some cells that equals a given one, or else that one itself. -/
def share (cells : List Cell) (cell : Cell) : Cell := (cells.find? (· == cell)).getD cell

/-- The cell of record `own`, given the cells of the later records. -/
def recordCell (config : Config) (own : Nat) (record : Record) (later : List Cell) :
    Except CellError Cell := do
  let refs ← record.refs.mapM (laterCell later own)
  let cell ← Cell.ofBytes record.kind record.data record.bits refs
  if cell.mask ≠ record.mask then
    throw (.bag (.levelMask own record.mask.toNat cell.mask))
  if cell.depth > config.maxDepth then
    throw (.bag (.tooDeep own cell.depth config.maxDepth))
  return share later cell

/-- The cells of some records, of which the first has number `own`. -/
def assemble (config : Config) : (own : Nat) → List Record → Except CellError (List Cell)
  | _, [] => .ok []
  | own, record :: records => do
    let later ← assemble config (own + 1) records
    let cell ← recordCell config own record later
    return cell :: later

/-- The roots of a bag, within the limits of a configuration. -/
def decode (config : Config) (data : Bytes) : Except CellError (List Cell) :=
  match readBag config data ⟨data, 0⟩ with
  | .error e _ => .error e
  | .ok (header, records) _ => do
    let cells ← assemble config 0 records
    header.roots.mapM (Checked.item cells)

/-- The root of a bag that has exactly one, within the default limits. -/
def decodeRoot (data : Bytes) : Except CellError Cell := do
  match ← decode {} data with
  | [root] => return root
  | roots => throw (.bag (.rootNotSingle roots.length))

/-! ## Texts -/

/-- The root of a bag in hexadecimal digits; blanks are ignored. -/
def decodeHex (text : String) : Except CellError Cell :=
  match Hex.decode? (Blank.remove text.toList) with
  | some data => decodeRoot data
  | none => .error (.bag .hexText)

/-- The root of a bag in base64, in either alphabet; the one that is safe in a URL may go without
padding. -/
def decodeBase64 (text : String) : Except CellError Cell :=
  let text := Blank.trim text.toList
  match Base64.decode? Base64.standard text <|> Base64.decode? Base64.urlSafe text <|>
      Base64.decode? Base64.urlSafeUnpadded text with
  | some data => decodeRoot data
  | none => .error (.bag .base64Text)

end BagOfCells.Bag
