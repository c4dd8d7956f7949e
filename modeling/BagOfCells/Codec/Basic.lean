import BagOfCells.Bag.Decode
import BagOfCells.Codec.Either
import BagOfCells.Dictionary.Basic

/-!
# Codecs

A codec of a type tells how its values are loaded from a slice and stored into a builder. Codecs of
composite types are put together from codecs of their parts: an optional part behind a presence bit,
a part in a reference, a part inline or in a reference, and any part behind a constant.

## Main definitions

* `Codec`, `Codec.toCell`, `Codec.ofCell`: codecs, and cells that hold one value
* `Codec.toBag`, `Codec.ofBag`, and the same for base64
* `Codec.bool`, `Codec.uint`, `Codec.cell`, `Codec.address`, `Codec.addressOrNone`, `Codec.coins`,
  `Codec.rest`, `Codec.dictionary`: simple codecs
* `Codec.maybe`, `Codec.inRef`, `Codec.either`, `Codec.tagged`: codecs put together
* `Dictionary.setValue`, `Dictionary.getValue`: dictionaries of values
-/

namespace BagOfCells

/-- How the values of a type are loaded and stored. -/
structure Codec (α : Type) where
  load : Load α
  /-- Stores a value. What precedes a part that cannot be stored may stay behind. -/
  store : α → Store

namespace Codec

variable {α : Type}

/-! ## Cells and bags of one value -/

/-- The cell of a value. -/
def toCell (codec : Codec α) (value : α) : Except CellError Cell :=
  Builder.build (codec.store value)

/-- The value of an ordinary cell, nothing of which may be left. -/
def ofCell (codec : Codec α) (cell : Cell) : Except CellError α :=
  Slice.parse codec.load cell

/-- The hash of the cell of a value. -/
def hash (codec : Codec α) (value : α) : Except CellError Digest :=
  (codec.toCell value).map Cell.hash

/-- The bag of a value. -/
def toBag (codec : Codec α) (value : α) (hasCrc : Bool) : Except CellError Bytes := do
  Bag.encodeRoot (← codec.toCell value) hasCrc

/-- The bag of a value in base64. -/
def toBase64 (codec : Codec α) (value : α) (hasCrc : Bool) : Except CellError String := do
  Bag.encodeBase64 (← codec.toCell value) hasCrc

/-- The value of a bag. -/
def ofBag (codec : Codec α) (data : Bytes) : Except CellError α := do
  codec.ofCell (← Bag.decodeRoot data)

/-- The value of a bag in base64. -/
def ofBase64 (codec : Codec α) (text : String) : Except CellError α := do
  codec.ofCell (← Bag.decodeBase64 text)

/-! ## Simple codecs -/

/-- A bit. -/
def bool : Codec Bool := ⟨Slice.loadBit, Builder.storeBit⟩

/-- A number of a width of at most 64. -/
def uint (width : Nat) : Codec (BitVec width) where
  load := return BitVec.ofNat width (← Slice.loadWord width).toNat
  store value := Builder.storeWord (UInt64.ofNat value.toNat) width

/-- A cell in a reference. -/
def cell : Codec Cell := ⟨Slice.loadRef, Builder.storeRef⟩

/-- A cell in a reference, or none. -/
def cellOrNone : Codec (Option Cell) := ⟨Slice.loadMaybeRef, Builder.storeMaybeRef⟩

def addressOrNone : Codec (Option Address) := ⟨Slice.loadAddress, Builder.storeAddress⟩

def address : Codec Address where
  load := do
    match ← Slice.loadAddress with
    | some address => return address
    | none => throw (.malformed .noAddress)
  store address := Builder.storeAddress (some address)

def coins : Codec Nat := ⟨Slice.loadCoinsNat, Builder.storeCoins⟩

/-- Everything that is left of the cell. -/
def rest : Codec Cell := ⟨Slice.toCell, Builder.storeCell⟩

/-- A dictionary with keys of a given width. -/
def dictionary (width : Nat) : Codec Dictionary where
  load := Slice.loadDictionary width
  store d :=
    if d.width ≠ width then throw (.valueOutOfRange (.dictionaryWidth d.width width))
    else Builder.storeDictionary (some d)

/-! ## Codecs put together -/

/-- A presence bit, then a value if it is set. -/
def maybe (codec : Codec α) : Codec (Option α) where
  load := do
    if ← Slice.loadBit then return some (← codec.load) else return none
  store
    | some value => do
      Builder.storeBit true
      codec.store value
    | none => Builder.storeBit false

/-- A value in a cell of its own. -/
def inRef (codec : Codec α) : Codec α where
  load := do ofExcept (codec.ofCell (← Slice.loadRef))
  store value := do Builder.storeRef (← ofExcept (codec.toCell value))

/-- A value inline if it fits, otherwise in a cell of its own. -/
def either (codec : Codec α) : Codec α where
  load := Slice.loadEither codec.load codec.ofCell
  store value := do Builder.storeEither (← ofExcept (codec.toCell value))

/-- A constant, then a value. -/
def tagged (constant : UInt64) (width : Nat) (codec : Codec α) : Codec α where
  load := do
    Slice.loadConstant constant width
    codec.load
  store value := do
    Builder.storeWord constant width
    codec.store value

end Codec

/-! ## Dictionaries of values -/

/-- Puts the cell of a value under a key. -/
def Dictionary.setValue {α : Type} (codec : Codec α) (d : Dictionary) (key : Key) (value : α) :
    Except CellError Dictionary := do
  let cell ← codec.toCell value
  return (← d.set key cell).2

/-- The value of the cell under a key. -/
def Dictionary.getValue {α : Type} (codec : Codec α) (d : Dictionary) (key : Key) :
    Except CellError (Option α) := do
  match ← d.get key with
  | some cell => return some (← codec.ofCell cell)
  | none => return none

end BagOfCells
