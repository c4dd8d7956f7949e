import BagOfCells.Codec.Either
import BagOfCells.Schema.Tag
import BagOfCells.Schema.Value

/-!
# Storing records

A record is stored field by field, in the order of its schema; constants are stored without being
looked up. Either the whole record is stored or nothing.

## Main definitions

* `FieldTag.store`, `Payload.toCell`, `Schema.storeFields`: values, nested cells and fields
* `Schema.store`: a record in a builder
* `Schema.toCell`: a record in a cell of its own
-/

namespace BagOfCells

/-- The constant a tag stands for. -/
def FieldTag.constant? : FieldTag → Option (UInt64 × Nat)
  | .magic value width => some (value, width)
  | _ => none

/-- Fails because of the form of a value. -/
def refuseValue (name : String) : Store := throw (.valueOutOfRange (.fieldValue name))

mutual
/-- Stores the value of a field. -/
def FieldTag.store (name : String) : FieldTag → Value → Store
  | .uint width, value => match value with
    | .uint v => Builder.storeNat v width
    | _ => refuseValue name
  | .int width, value => match value with
    | .int v => Builder.storeInt v width
    | _ => refuseValue name
  | .bits width, value => match value with
    | .bits data =>
      if 8 * data.length < width then
        throw (.valueOutOfRange (.fieldBits name width data.length))
      else Builder.storeBits data width
    | _ => refuseValue name
  | .bool, value => match value with
    | .bool b => Builder.storeBit b
    | _ => refuseValue name
  | .coins, value => match value with
    | .coins v | .uint v => Builder.storeCoins v
    | _ => refuseValue name
  | .address, value => match value with
    | .address a => Builder.storeAddress a
    | .none => Builder.storeAddress none
    | _ => refuseValue name
  | .magic constant width, _ => Builder.storeWord constant width
  | .ref payload, value => do
    Builder.storeRef (← ofExcept (payload.toCell name value))
  | .inline payload, value => payload.storeInline name value
  | .either payload, value => do
    Builder.storeEither (← ofExcept (payload.toCell name value))
  | .maybe inner, value => match value with
    | .none => Builder.storeBit false
    | value => do
      Builder.storeBit true
      inner.store name value
  | .dict width, value => match value with
    | .dict d =>
      if d.width ≠ width then throw (.valueOutOfRange (.fieldKeys name width d.width))
      else Builder.storeDictionary d
    | .none => Builder.storeDictionary none
    | _ => refuseValue name

/-- Stores the contents of what a payload holds. -/
def Payload.storeInline (name : String) : Payload → Value → Store
  | .cell, value => match value with
    | .cell cell => Builder.storeCell cell
    | _ => refuseValue name
  | .record schema, value => match value with
    | .record record => Builder.atomically (schema.storeFields record)
    | _ => refuseValue name

/-- The cell of what a payload holds. -/
def Payload.toCell (name : String) : Payload → Value → Except CellError Cell
  | .cell, value => match value with
    | .cell cell => .ok cell
    | _ => .error (.valueOutOfRange (.fieldCell name))
  | .record schema, value => match value with
    | .record record => Builder.build (schema.storeFields record)
    | _ => .error (.valueOutOfRange (.fieldRecord name))

/-- Stores the fields of a record. -/
def Schema.storeFields : Schema → Record → Store
  | .nil, _ => pure ()
  | .cons name tag rest, record => do
    match tag.constant? with
    | some (value, width) => Builder.storeWord value width
    | none =>
      match record.get? name with
      | some value => tag.store name value
      | none => throw (.missingField name)
    rest.storeFields record
end

/-- Stores a record, or nothing of it. -/
def Schema.store (schema : Schema) (record : Record) : Store :=
  Builder.atomically (schema.storeFields record)

/-- The cell of a record. -/
def Schema.toCell (schema : Schema) (record : Record) : Except CellError Cell :=
  Builder.build (schema.store record)

end BagOfCells
