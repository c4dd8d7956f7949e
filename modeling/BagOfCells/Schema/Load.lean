import BagOfCells.Schema.Store

/-!
# Loading records

A record is loaded field by field, in the order of its schema. A constant is compared with what is
found: a constant that is a field of its own is left in place when it differs.

## Main definitions

* `FieldTag.load`, `Payload.load`, `Payload.ofCell`, `Schema.loadFields`: values, cells and fields
* `Schema.load`: a record from a slice
* `Schema.ofCell`: a record from a cell of its own
-/

namespace BagOfCells

mutual
/-- Loads the value of a field. -/
def FieldTag.load : FieldTag → Load Value
  | .uint width => return .uint (← Slice.loadNat width)
  | .int width => return .int (← Slice.loadInt width)
  | .bits width => return .bits (Bits.pack (← Slice.loadBits width))
  | .bool => return .bool (← Slice.loadBit)
  | .coins => return .coins (← Slice.loadCoinsNat)
  | .address => return .address (← Slice.loadAddress)
  | .magic value width => do
    let actual ← Slice.loadWord width
    if actual ≠ value then throw (.tagMismatch value.toNat actual.toNat)
    return .none
  | .ref payload => do ofExcept (payload.ofCell (← Slice.loadRef))
  | .inline payload => payload.load
  | .either payload => Slice.loadEither payload.load payload.ofCell
  | .maybe inner => do
    if ← Slice.loadBit then inner.load else return .none
  | .dict width => return .dict (← Slice.loadDictionary width)

/-- Loads what a payload holds inline. -/
def Payload.load : Payload → Load Value
  | .cell => return .cell (← Slice.toCell)
  | .record schema => return .record (← schema.loadFields .nil)

/-- What a payload holds in a cell. -/
def Payload.ofCell : Payload → Cell → Except CellError Value
  | .cell, cell => .ok (.cell cell)
  | .record schema, cell => (Slice.parse (schema.loadFields .nil) cell).map .record

/-- Loads the fields of a record, beside those loaded already. -/
def Schema.loadFields : Schema → Record → Load Record
  | .nil, record => return record
  | .cons name tag rest, record => do
    match tag.constant? with
    -- a constant has no value in the record
    | some (value, width) =>
      Slice.loadConstant value width
      rest.loadFields record
    | none =>
      let value ← tag.load
      rest.loadFields (record.set name value)
end

/-- Loads a record. -/
def Schema.load (schema : Schema) : Load Record := schema.loadFields .nil

/-- The record of a cell, nothing of which may be left. -/
def Schema.ofCell (schema : Schema) (cell : Cell) : Except CellError Record :=
  Slice.parse schema.load cell

end BagOfCells
