import BagOfCells.Bag.Config
import BagOfCells.Bag.Order
import BagOfCells.Checksum
import BagOfCells.Error
import BagOfCells.Text.Base64

/-!
# Writing bags

A bag begins with a magic number, flags and the two field sizes: that of counts and cell numbers,
and that of offsets. Then come the counts of cells, roots and absent cells, the total size of the
records, the numbers of the roots, the index if there is one, the records in order, and the checksum
if there is one. A record is the descriptors of a cell, its tagged data and the numbers of the cells
it refers to.

## Main definitions

* `Bag.record`: the record of a cell
* `Bag.encode roots flags`: the bag of some roots
* `Bag.encodeRoot`, `Bag.encodeHex`, `Bag.encodeBase64`: the bag of one root, also as text
-/

namespace BagOfCells.Bag

/-- The magic number of a bag. -/
def magic : Nat := 0xb5ee9c72

/-- The least count of bytes that hold a number; one for zero. -/
def bytesNeeded (n : Nat) : Nat :=
  if n = 0 then 1 else (Bits.size n + 7) / 8

/-- The flags in front of a bag, with the size of cell numbers. -/
def Flags.byte (flags : Flags) (refSize : Nat) : UInt8 :=
  -- the size takes the three low bits; the flag of cache bits is never set
  UInt8.ofNat refSize ||| (if flags.hasIndex then 0x80 else 0) |||
    (if flags.hasCrc then 0x40 else 0)

/-- The number of a cell among some cells, in `refSize` bytes. -/
def cellNumber (cells : List Cell) (refSize : Nat) (cell : Cell) : Except CellError Bytes :=
  match number? cells cell with
  | some n => .ok (Bytes.ofNat refSize n)
  | none => .error (.bag .unnumbered)

/-- The record of a cell. -/
def record (cells : List Cell) (refSize : Nat) (cell : Cell) : Except CellError Bytes := do
  let refs ← cell.refs.mapM (cellNumber cells refSize)
  return cell.descriptors ++ cell.tagged ++ refs.flatten

/-- The ends of some records laid one behind the other, the first from `start`. -/
def ends (start : Nat) : List Bytes → List Nat
  | [] => []
  | record :: records => (start + record.length) :: ends (start + record.length) records

/-- The bag of some roots. -/
def encode (roots : List Cell) (flags : Flags) : Except CellError Bytes := do
  if roots.isEmpty then throw (.bag .noRoots)
  let cells := order roots
  let refSize := bytesNeeded cells.length
  let records ← cells.mapM (record cells refSize)
  let total := records.flatten.length
  let offsetSize := bytesNeeded total
  let rootNumbers ← roots.mapM (cellNumber cells refSize)
  let index := if flags.hasIndex then (ends 0 records).map (Bytes.ofNat offsetSize) else []
  let body :=
    Bytes.ofNat 4 magic ++ [flags.byte refSize, UInt8.ofNat offsetSize] ++
    -- the counts of cells, roots and absent cells; none is ever absent
    Bytes.ofNat refSize cells.length ++ Bytes.ofNat refSize roots.length ++
    Bytes.ofNat refSize 0 ++ Bytes.ofNat offsetSize total ++
    rootNumbers.flatten ++ index.flatten ++ records.flatten
  -- the checksum is over all that stands in front of it, least significant byte first
  if flags.hasCrc then
    return body ++ Bytes.ofNatReversed 4 (Crc32c.checksum body).toNat
  else return body

/-- The bag of one root, without index. -/
def encodeRoot (root : Cell) (hasCrc : Bool) : Except CellError Bytes :=
  encode [root] ⟨false, hasCrc⟩

/-- The bag of one root in hexadecimal digits. -/
def encodeHex (root : Cell) (hasCrc : Bool) : Except CellError String :=
  (encodeRoot root hasCrc).map Hex.encode

/-- The bag of one root in base64. -/
def encodeBase64 (root : Cell) (hasCrc : Bool) : Except CellError String :=
  (encodeRoot root hasCrc).map fun bytes => String.ofList (Base64.encode Base64.standard bytes)

end BagOfCells.Bag
