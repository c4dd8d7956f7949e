import BagOfCells.Bag.Decode
import BagOfCells.Proofs.Bits
import BagOfCells.Proofs.Bytes

/-!
# The format of bags

A bag is printed from what it says: the magic number with the flags, the sizes of the fields, the
counts, the numbers of the roots, the index, the records and the checksum. What may be said is laid
down field by field, without a word about how it is read. Two things are free: with cache bits the
low bit of each entry of the index, and the checksum where nobody looks at it.

## Main definitions

* `Bag.Source`: what a bag says
* `Bag.Preamble.bytes`, `Bag.Header.bytes`, `Bag.Record.bytes`, `Bag.Source.bytes`: how it is
  printed
* `Bag.Preamble.Legal`, `Bag.Header.Legal`, `Bag.Record.Legal`, `Bag.Source.Legal`: what may be said
-/

namespace BagOfCells.Bag

/-! ## The header -/

/-- The magic number of a form. -/
def Preamble.magicNumber (form : Preamble) : Nat :=
  if form.legacy then if form.hasCrc then legacyCrcMagic else legacyMagic else magic

/-- The byte behind the magic number: three flags and the size of cell numbers, or in an older form
the size alone. -/
def Preamble.flags (form : Preamble) : Nat :=
  if form.legacy then form.refSize
  else form.refSize + 32 * form.hasCacheBits.toNat + 64 * form.hasCrc.toNat +
    128 * form.hasIndex.toNat

def Preamble.bytes (form : Preamble) : Bytes :=
  Bytes.ofNat 4 form.magicNumber ++ Bytes.ofNat 1 form.flags

structure Preamble.Legal (form : Preamble) : Prop where
  refSize : 1 ≤ form.refSize ∧ form.refSize ≤ 4
  /-- Cache bits are bits of index entries. -/
  cache : form.hasCacheBits = true → form.hasIndex = true
  legacy : form.legacy = true → form.hasIndex = true ∧ form.hasCacheBits = false

/-- The sizes, the counts of cells, roots and absent cells, the size of all records and the numbers
of the roots; an older form does not list its root. -/
def Header.bytes (header : Header) : Bytes :=
  header.toPreamble.bytes ++ Bytes.ofNat 1 header.offsetSize ++
    Bytes.ofNat header.refSize header.cells ++ Bytes.ofNat header.refSize header.roots.length ++
    Bytes.ofNat header.refSize 0 ++ Bytes.ofNat header.offsetSize header.total ++
    if header.legacy then [] else (header.roots.map (Bytes.ofNat header.refSize)).flatten

/-- The offset that an entry of the index stands for. -/
def Header.offset (header : Header) (entry : Nat) : Nat :=
  -- with cache bits the low bit of an entry is free
  if header.hasCacheBits then entry / 2 else entry

/-- The header keeps the sizes of its fields and the limits of a configuration. -/
structure Header.Legal (config : Config) (header : Header) : Prop where
  form : header.toPreamble.Legal
  offsetSize : 1 ≤ header.offsetSize ∧ header.offsetSize ≤ 8
  cells_pos : 1 ≤ header.cells
  cells_lt : header.cells < 256 ^ header.refSize
  cells_le : header.cells ≤ config.maxCells
  roots_pos : 1 ≤ header.roots.length
  roots_le : header.roots.length ≤ config.maxRoots
  roots_le_cells : header.roots.length ≤ header.cells
  roots_lt : ∀ root ∈ header.roots, root < header.cells
  /-- The root of an older form is the first cell. -/
  root : header.legacy = true → header.roots = [0]
  total_lt : header.total < 256 ^ header.offsetSize

/-! ## Records -/

/-- The second descriptor: twice the bytes of data, less one if they end with a tag. -/
def Record.sizeDescriptor (record : Record) : Nat :=
  if record.bits = 8 * record.data.length then 2 * record.data.length
  else 2 * record.data.length - 1

/-- The descriptors, the data and the numbers of the cells referred to. -/
def Record.bytes (refSize : Nat) (record : Record) : Bytes :=
  Bytes.ofNat 1 (refsDescriptor record.refs.length record.kind.isExotic record.mask) ++
    Bytes.ofNat 1 record.sizeDescriptor ++ record.data ++
    (record.refs.map (Bytes.ofNat refSize)).flatten

/-- Record `own` of `cells` records. -/
structure Record.Legal (cells own : Nat) (record : Record) : Prop where
  bits_le : record.bits ≤ Cell.maxBits
  /-- The bits fill the data, or the tag stands behind them. -/
  closed : record.bits = 8 * record.data.length ∨ Bits.Tagged record.data record.bits
  /-- An exotic record begins with the byte of its kind. -/
  begins : ∀ byte, record.kind.typeByte? = some byte →
    8 ≤ record.bits ∧ record.data.head? = some byte
  refs_le : record.refs.length ≤ Cell.maxRefs
  /-- References point forward. -/
  refs : ∀ target ∈ record.refs, own < target ∧ target < cells

theorem length_ends (start : Nat) (records : List Bytes) :
    (ends start records).length = records.length := by
  induction records generalizing start with
  | nil => rfl
  | cons record records ih => rw [ends, List.length_cons, List.length_cons, ih]

/-! ## The whole bag -/

/-- What a bag says. -/
structure Source where
  header : Header
  /-- The index; empty if there is none. -/
  entries : List Nat
  records : List Record
  /-- The checksum; empty if there is none. -/
  trailer : Bytes

namespace Source

variable (source : Source)

/-- The records as they are printed. -/
def printed : List Bytes := source.records.map (Record.bytes source.header.refSize)

/-- Everything in front of the checksum. -/
def body : Bytes :=
  source.header.bytes ++ (source.entries.map (Bytes.ofNat source.header.offsetSize)).flatten ++
    source.printed.flatten

def bytes : Bytes := source.body ++ source.trailer

/-- What a bag may say under a configuration, but for the checksum. -/
structure Framed (config : Config) (source : Source) : Prop where
  header : source.header.Legal config
  /-- The index lists the ends of the records. -/
  offsets : source.entries.map source.header.offset =
    if source.header.hasIndex then ends 0 source.printed else []
  entries_lt : ∀ entry ∈ source.entries, entry < 256 ^ source.header.offsetSize
  cells : source.records.length = source.header.cells
  records : ∀ own (record : Record), source.records[own]? = some record →
    record.Legal source.header.cells own
  total : source.printed.flatten.length = source.header.total
  trailer : source.trailer.length = if source.header.hasCrc then 4 else 0

/-- What a bag may say under a configuration. -/
structure Legal (config : Config) (source : Source) : Prop extends Framed config source where
  checksum : source.header.hasCrc = true → config.verifyCrc = true →
    source.trailer = Bytes.ofNatReversed 4 (Crc32c.checksum source.body).toNat

end Source

end BagOfCells.Bag
