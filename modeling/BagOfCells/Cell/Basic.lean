import BagOfCells.Bits
import BagOfCells.Cell.Kind
import BagOfCells.Cell.LevelMask
import BagOfCells.Sha256

/-!
# Cells

A cell holds up to 1023 bits and up to four references to other cells. It carries its level mask and
its hash and depth at each level, computed once when the cell is made (`Cell.make`), so equality is
a comparison of two digests.

## Main definitions

* `Cell`, `Cell.kind`, `Cell.bits`, `Cell.refs`, `Cell.mask`, `Cell.hashes`: a cell and its parts
* `Cell.hashAt level`, `Cell.depthAt level`, `Cell.hash`, `Cell.depth`
* `Cell.descriptors`, `Cell.data`, `Cell.tagged`: the bytes of a cell
* `refsDescriptor`, `bitsDescriptor`: the two numbers in front of them
* `refsDescriptorByte?`, `bitsDescriptorByte`: these as bytes, whatever the counts
-/

namespace BagOfCells

/-- The hash and the depth of a cell at one level. -/
structure LevelHash where
  digest : Digest
  /-- The length of the longest chain of references, seen from the level. -/
  depth : Nat
  deriving DecidableEq, Inhabited

/-- The hashes and depths of a cell at the levels 0 to 3. -/
structure LevelHashes where
  (zero one two three : LevelHash)
  deriving DecidableEq, Inhabited

/-- The hash and depth at a level; beyond level 3 as at level 3. -/
def LevelHashes.get (hashes : LevelHashes) : Nat → LevelHash
  | 0 => hashes.zero
  | 1 => hashes.one
  | 2 => hashes.two
  | _ => hashes.three

/-- A cell: its kind, bits and references, and what is derived from them. -/
inductive Cell where
  /-- The parts of a cell; a cell is made by `Cell.make`, which computes the last two. -/
  | mk (kind : CellKind) (bits : Bits) (refs : List Cell) (mask : LevelMask) (hashes : LevelHashes)

/-! ## Descriptors -/

/-- The first descriptor byte: the count of references, eight for an exotic cell, and thirty-two
times the level mask. -/
def refsDescriptor (refs : Nat) (isExotic : Bool) (mask : LevelMask) : Nat :=
  refs + (if isExotic then 8 else 0) + 32 * mask.toNat

/-- The second descriptor byte: the full bytes plus the begun bytes. -/
def bitsDescriptor (bits : Nat) : Nat :=
  bits / 8 + (bits + 7) / 8

/-- The first descriptor as one byte, or none if the sum is more than a byte holds. Only the low
byte of the count of references is added. -/
def refsDescriptorByte? (refs : Nat) (isExotic : Bool) (mask : LevelMask) : Option UInt8 :=
  let descriptor := refsDescriptor (refs % 256) isExotic mask
  if descriptor < 256 then some (UInt8.ofNat descriptor) else none

/-- The low byte of the second descriptor, which is all of it for what a cell holds. -/
def bitsDescriptorByte (bits : Nat) : UInt8 :=
  UInt8.ofNat (bitsDescriptor bits)

namespace Cell

/-- The most bits a cell holds. -/
def maxBits : Nat := 1023

/-- The most references a cell holds. -/
def maxRefs : Nat := 4

/-- The greatest depth: depths are written in two bytes. -/
def maxDepth : Nat := 65535

/-! ## Parts -/

def kind : Cell → CellKind
  | mk kind .. => kind

def bits : Cell → Bits
  | mk _ bits .. => bits

def refs : Cell → List Cell
  | mk _ _ refs .. => refs

def mask : Cell → LevelMask
  | mk _ _ _ mask _ => mask

def hashes : Cell → LevelHashes
  | mk _ _ _ _ hashes => hashes

def isExotic (cell : Cell) : Bool := cell.kind.isExotic

def isEmpty (cell : Cell) : Bool := cell.bits.isEmpty && cell.refs.isEmpty

/-- The highest level at which the cell has a hash of its own. -/
def level (cell : Cell) : Nat := cell.mask.level

def hashAt (cell : Cell) (level : Nat) : Digest := (cell.hashes.get level).digest

def depthAt (cell : Cell) (level : Nat) : Nat := (cell.hashes.get level).depth

/-- The hash at the highest level. -/
def hash (cell : Cell) : Digest := cell.hashAt LevelMask.maxLevel

/-- The depth at the highest level. -/
def depth (cell : Cell) : Nat := cell.depthAt LevelMask.maxLevel

/-- Two cells are equal when their hashes are. -/
instance : BEq Cell := ⟨fun a b => a.hash == b.hash⟩

/-! ## Bytes -/

/-- The data in whole bytes, the tail zero. -/
def data (cell : Cell) : Bytes := Bits.pack cell.bits

/-- The data in whole bytes, closed by the completion tag. -/
def tagged (cell : Cell) : Bytes := Bits.pack (Bits.complete cell.bits)

/-- The two bytes in front of the data. -/
def descriptors (cell : Cell) : Bytes :=
  [UInt8.ofNat (refsDescriptor cell.refs.length cell.isExotic cell.mask),
   bitsDescriptorByte cell.bits.length]

end Cell

end BagOfCells
