import BagOfCells.Dictionary.Basic

/-!
# Records and their values

A record maps names to values of different forms. Its fields are kept in ascending order of their
names, so a record is determined by what is found under each name.

## Main definitions

* `Value`, `Record`
* `Record.set`, `Record.get?`, `Record.toList`, `Record.ofList`
* `Value.word?`, `Value.signedWord?`, …: the value, if it has a certain form
-/

namespace BagOfCells

mutual
/-- The value of a field. -/
inductive Value where
  | none
  | uint (value : Nat)
  | int (value : Int)
  | bits (data : Bytes)
  | bool (value : Bool)
  | coins (amount : Nat)
  | address (address : Option Address)
  | cell (cell : Cell)
  | record (record : Record)
  | dict (dictionary : Dictionary)

/-- Values by name. -/
inductive Record where
  | nil
  /-- A value and those with greater names. -/
  | cons (name : String) (value : Value) (rest : Record)
end

instance : Inhabited Value := ⟨.none⟩

instance : Inhabited Record := ⟨.nil⟩

mutual
/-- Whether two values are equal, cells compared by their hashes. -/
def Value.beq : Value → Value → Bool
  | .none, .none => true
  | .uint a, .uint b => a == b
  | .int a, .int b => a == b
  | .bits a, .bits b => a == b
  | .bool a, .bool b => a == b
  | .coins a, .coins b => a == b
  | .address a, .address b => a == b
  | .cell a, .cell b => a == b
  | .record a, .record b => a.beq b
  | .dict a, .dict b => a == b
  | _, _ => false

/-- Whether two records have equal values under the same names. -/
def Record.beq : Record → Record → Bool
  | .nil, .nil => true
  | .cons name value rest, .cons name' value' rest' =>
    name == name' && value.beq value' && rest.beq rest'
  | _, _ => false
end

instance : BEq Value := ⟨Value.beq⟩

instance : BEq Record := ⟨Record.beq⟩

namespace Record

/-- A record with a value put under a name. -/
def set (name : String) (value : Value) : Record → Record
  | nil => cons name value nil
  | cons n v rest =>
    if name < n then cons name value (cons n v rest)
    else if name = n then cons name value rest
    else cons n v (rest.set name value)

/-- The value under a name. -/
def get? (name : String) : Record → Option Value
  | nil => .none
  | cons n v rest => if n = name then some v else rest.get? name

/-- The names and values, in ascending order. -/
def toList : Record → List (String × Value)
  | nil => []
  | cons name value rest => (name, value) :: rest.toList

/-- How many values there are. -/
def size (record : Record) : Nat := record.toList.length

/-- Whether there are no values. -/
def isEmpty : Record → Bool
  | nil => true
  | cons .. => false

/-- The record of some values; of two under one name the later one stays. -/
def ofList (values : List (String × Value)) : Record :=
  values.foldl (fun record (name, value) => record.set name value) nil

end Record

namespace Value

/-- The number of a value, if it is below `2 ^ 64`. -/
def word? : Value → Option UInt64
  | uint n | coins n => if n < Bits.bound 64 then some (UInt64.ofNat n) else .none
  | int v => if 0 ≤ v ∧ v < Bits.bound 64 then some (UInt64.ofNat v.toNat) else .none
  | _ => .none

/-- The number of a value, if it fits a signed machine word. -/
def signedWord? : Value → Option Int64
  | uint n => if n < Bits.bound 63 then some (Int64.ofNat n) else .none
  | int v => if -(Bits.bound 63) ≤ v ∧ v < Bits.bound 63 then some (Int64.ofInt v) else .none
  | _ => .none

/-- The bit of a value. -/
def bool? : Value → Option Bool
  | bool b => some b
  | _ => .none

/-- The cell of a value. -/
def cell? : Value → Option Cell
  | cell c => some c
  | _ => .none

/-- The record of a value. -/
def record? : Value → Option Record
  | record r => some r
  | _ => .none

/-- The address of a value, unless it is none. -/
def address? : Value → Option Address
  | address a => a
  | _ => .none

/-- Whether the value is that of an absent field. -/
def isNone : Value → Bool
  | none => true
  | _ => false

end Value

end BagOfCells
