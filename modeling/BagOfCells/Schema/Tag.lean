import BagOfCells.Error
import BagOfCells.Cell.Basic
import BagOfCells.Text.Blank

/-!
# Schemas and their tags

A schema is a list of named fields. Each has a tag, which tells how the field is stored; a tag is
given as a text of a few words:

* `## N`, `int N`, `bits N`: a number, a number in two's complement, or bits, of width `N`
* `bool`, `coins`, `addr`: a bit, an amount, an address or none
* `#` or `$` and digits: a constant, four bits a hexadecimal digit or one bit a binary digit
* `^`, `.`, `either . ^`: a cell in a reference, inline, or inline if it fits
* `maybe` and a tag: a presence bit, then the rest if it is set
* `dict N`: a dictionary with keys of width `N`

The cell of the fourth line may be replaced by a nested schema. A cell that is stored inline has no
length of its own, so a field with such a tag is the last one.

## Main definitions

* `FieldTag`, `Payload`, `Schema`: tags, what their cells hold, and schemas
* `FieldTag.parse`: the tag of a text
* `FieldTag.takesRest`, `FieldTag.withRecord`
* `Schema.field`, `Schema.nested`, `Schema.eitherNested`: a schema with one more field
* `Schema.parse`: the schema of some texts
-/

namespace BagOfCells

mutual
/-- How a field is stored. -/
inductive FieldTag where
  | uint (width : Nat)
  | int (width : Nat)
  | bits (width : Nat)
  | bool
  | coins
  | address
  /-- A constant, which has no value in a record. -/
  | magic (value : UInt64) (width : Nat)
  | ref (payload : Payload)
  | inline (payload : Payload)
  /-- A cell inline if it fits, otherwise in a reference. -/
  | either (payload : Payload)
  /-- A presence bit, then the inner tag if it is set. -/
  | maybe (inner : FieldTag)
  | dict (width : Nat)

/-- What the cell of a field holds. -/
inductive Payload where
  | cell
  | record (schema : Schema)

/-- A list of named fields. -/
inductive Schema where
  | nil
  | cons (name : String) (tag : FieldTag) (rest : Schema)
end

namespace FieldTag

/-! ## Texts -/

/-- The width a text stands for. -/
def parseWidth (text : List Char) : Except TagFault Nat :=
  match Numeral.word? 10 text with
  | none => .error (.width (String.ofList text))
  | some width =>
    if width.toNat > Cell.maxBits then .error (.widthTooLarge width.toNat) else .ok width.toNat

/-- The constant of some digits, each of which stands for a fixed count of bits. -/
def parseConstant (digits : List Char) (base bitsPerDigit : Nat) : Except TagFault FieldTag :=
  -- every byte counts as a digit here, also a sign in front
  let width := (String.ofList digits).utf8ByteSize * bitsPerDigit
  if digits.isEmpty ∨ width > 64 then .error (.constantLength width)
  else match Numeral.word? base digits with
    | some value => .ok (.magic value width)
    | none => .error (.constant (String.ofList digits))

/-- The tag of some words. -/
def parseWords : List (List Char) → Except TagFault FieldTag
  | ['m', 'a', 'y', 'b', 'e'] :: word :: words => (parseWords (word :: words)).map maybe
  | [['#', '#'], text] => (parseWidth text).map uint
  | [['i', 'n', 't'], text] => (parseWidth text).map int
  | [['b', 'i', 't', 's'], text] => (parseWidth text).map bits
  | [['d', 'i', 'c', 't'], text] => (parseWidth text).map dict
  | [['b', 'o', 'o', 'l']] => .ok bool
  | [['c', 'o', 'i', 'n', 's']] => .ok coins
  | [['a', 'd', 'd', 'r']] => .ok address
  | [['^']] => .ok (ref .cell)
  | [['.']] => .ok (inline .cell)
  | [['e', 'i', 't', 'h', 'e', 'r'], ['.'], ['^']] => .ok (either .cell)
  | ['#' :: digits] => parseConstant digits 16 4
  | ['$' :: digits] => parseConstant digits 2 1
  | _ => .error .unknown

/-- The tag of a text. -/
def parse (text : String) : Except CellError FieldTag :=
  (parseWords (Blank.words text.toList)).mapError fun fault => .malformed (.tag text fault)

/-! ## Nesting -/

/-- A tag with a nested schema in place of its cell. -/
def withRecord (schema : Schema) : FieldTag → Except CellError FieldTag
  | ref .cell => .ok (ref (.record schema))
  | inline .cell => .ok (inline (.record schema))
  | either .cell => .ok (either (.record schema))
  | maybe inner => (inner.withRecord schema).map maybe
  | _ => .error (.malformed .nestedRecord)

end FieldTag

mutual
/-- Whether a field with the tag takes the rest of the cell it is in. -/
def FieldTag.takesRest : FieldTag → Bool
  | .inline payload => payload.takesRest
  | .either payload => payload.takesRest
  | .maybe inner => inner.takesRest
  | .uint _ | .int _ | .bits _ | .bool | .coins | .address | .magic _ _ | .ref _ | .dict _ => false

/-- Whether a payload takes the rest of the cell it is in. -/
def Payload.takesRest : Payload → Bool
  | .cell => true
  | .record schema => schema.takesRest

/-- Whether the last field takes the rest of the cell it is in. -/
def Schema.takesRest : Schema → Bool
  | .nil => false
  | .cons _ tag .nil => tag.takesRest
  | .cons _ _ (.cons name tag rest) => (Schema.cons name tag rest).takesRest
end

namespace Schema

/-- The fields of a schema, in order. -/
def fields : Schema → List (String × FieldTag)
  | nil => []
  | cons name tag rest => (name, tag) :: rest.fields

/-- A schema with one more field behind the others. -/
def append (name : String) (tag : FieldTag) : Schema → Schema
  | nil => cons name tag nil
  | cons first firstTag rest => cons first firstTag (rest.append name tag)

/-- A schema with one more field, unless the last one takes the rest of the cell. -/
def push (schema : Schema) (name : String) (tag : FieldTag) : Except CellError Schema :=
  match schema.fields.getLast? with
  | some (last, lastTag) =>
    if lastTag.takesRest then .error (.malformed (.afterRest name last))
    else .ok (schema.append name tag)
  | none => .ok (schema.append name tag)

/-- A schema with one more field, its tag given as a text. -/
def field (schema : Schema) (name tag : String) : Except CellError Schema := do
  schema.push name (← FieldTag.parse tag)

/-- A schema with one more field that holds a nested record, placed as a tag tells. -/
def nested (schema : Schema) (name tag : String) (inner : Schema) : Except CellError Schema := do
  schema.push name (← (← FieldTag.parse tag).withRecord inner)

/-- A schema with one more field that holds a nested record, inline if it fits. -/
def eitherNested (schema : Schema) (name : String) (inner : Schema) : Except CellError Schema :=
  schema.nested name "either . ^" inner

/-- The schema of some fields, their tags given as texts. -/
def parse (fields : List (String × String)) : Except CellError Schema :=
  fields.foldlM (fun schema (name, tag) => schema.field name tag) nil

end Schema

end BagOfCells
