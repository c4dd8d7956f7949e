import BagOfCells.Builder.Packed

/-!
# Store calls

A builder is filled by calls, one after the other, of which some fail. A call that fails may leave
something behind, and the next one goes on from there.

## Main definitions

* `StoreCall`: a store and its arguments
* `StoreCall.run`, `StoreCall.runAll`: what a call does to a builder, and what some calls leave
* `StoreCall.history`: the builder that some calls leave of an empty one
* `StoreCall.encoding`: the bits and references that stand for the arguments of a call
-/

namespace BagOfCells

/-- A store and its arguments. A truth value is a bit; an amount is a number of variable length with
four bits for its length; a text is its bytes, as a snake behind a zero byte if it is marked. A
store that must succeed is the same call. -/
inductive StoreCall where
  | bit (value : Bool)
  | bits (data : Bytes) (count : Nat)
  | zeroes (count : Nat)
  | byte (value : UInt8)
  | bytes (data : Bytes)
  /-- A number in a field of whole bytes. -/
  | field (size value : Nat)
  /-- The low bits of a machine word, whatever is above them. -/
  | lowBits (value : UInt64) (width : Nat)
  | word (value : UInt64) (width : Nat)
  | signedWord (value : Int64) (width : Nat)
  | nat (value width : Nat)
  | int (value : Int) (width : Nat)
  | varNat (value lengthBits : Nat)
  | ref (target : Cell)
  | maybeRef (target : Option Cell)
  | dictionary (d : Option Dictionary)
  /-- The contents of a cell. -/
  | cell (source : Cell)
  /-- What is left of a slice. -/
  | slice (source : Slice)
  /-- What another builder holds after some calls. -/
  | builder (calls : List StoreCall)
  | snake (data : Bytes)
  | address (value : Option Address)
  | externalAddress (value : ExternalAddress)

namespace StoreCall

open PackedBuilder

/-! ## Runs -/

/-- What a store leaves of a builder, whether it succeeds or not. -/
def left {σ : Type} (store : EStateM CellError σ Unit) (b : σ) : σ :=
  match store b with
  | .ok _ b' => b'
  | .error _ b' => b'

mutual

/-- What a call does to a builder. -/
def run : StoreCall → PackedStore
  | .bit value => storeBit value
  | .bits data count => storeBits data count
  | .zeroes count => storeZeroes count
  | .byte value => storeByte value
  | .bytes data => storeBytes data
  | .field size value => storeField size value
  | .lowBits value width => storeLowBits value width
  | .word value width => storeWord value width
  | .signedWord value width => storeSignedWord value width
  | .nat value width => storeNat value width
  | .int value width => storeInt value width
  | .varNat value lengthBits => storeVarNat value lengthBits
  | .ref target => storeRef target
  | .maybeRef target => storeMaybeRef target
  | .dictionary d => storeDictionary d
  | .cell source => storeCell source
  | .slice source => storeSlice source
  | .builder calls => storeBuilder (runAll calls .empty)
  | .snake data => storeSnake data
  | .address value => storeAddress value
  | .externalAddress value => storeExternalAddress value

/-- What some calls leave of a builder. -/
def runAll : List StoreCall → PackedBuilder → PackedBuilder
  | [], b => b
  | call :: calls, b => runAll calls (left call.run b)

end

/-- What some calls leave of an empty builder. -/
def history (calls : List StoreCall) : PackedBuilder := runAll calls .empty

/-! ## Encodings -/

/-- The bits of a number of a width. -/
def unsigned (value width : Nat) : Option (Bits × List Cell) :=
  if Bits.size value ≤ width then some (Bits.ofNat width value, []) else none

/-- The bits of a number of a width in two's complement. -/
def signed (value : Int) (width : Nat) : Option (Bits × List Cell) :=
  if Bits.signedSize value ≤ width then some (Bits.ofInt width value, []) else none

/-- The presence bit and the reference of what may be there. -/
def optional (target : Option Cell) : Bits × List Cell :=
  ([target.isSome], target.toList)

/-- The bits and references that stand for the arguments of a call, if there are any, where `room`
whole bytes still fit the cell. Only a snake depends on the room. -/
def encoding (room : Nat) : StoreCall → Option (Bits × List Cell)
  | .bit value => some ([value], [])
  | .bits data count =>
    if count ≤ 8 * data.length then some ((Bits.ofBytes data).take count, []) else none
  | .zeroes count => some (List.replicate count false, [])
  | .byte value => some (Bits.ofNat 8 value.toNat, [])
  | .bytes data => some (Bits.ofBytes data, [])
  | .field size value => some (Bits.ofNat (8 * size) value, [])
  | .lowBits value width => if width ≤ 64 then some (Bits.ofNat width value.toNat, []) else none
  | .word value width => unsigned value.toNat width
  | .nat value width => unsigned value width
  | .signedWord value width => signed value.toInt width
  | .int value width => signed value width
  | .varNat value lengthBits =>
    let length := (Bits.size value + 7) / 8
    if Bits.size length ≤ min lengthBits 16 then
      some (Bits.ofNat lengthBits length ++ Bits.ofNat (8 * length) value, [])
    else none
  | .ref target => some ([], [target])
  | .maybeRef target => some (optional target)
  | .dictionary d => do
    let root ← (d.mapM Dictionary.toCell?).toOption
    return optional root.join
  | .cell source => if source.isExotic then none else some (source.bits, source.refs)
  | .slice source => some (source.bits, source.refs)
  | .builder calls => some ((history calls).bits, (history calls).refs)
  | .snake data => do
    let next ← (Snake.chain (Snake.links (data.drop room))).toOption
    return (Bits.ofBytes (data.take room), next.toList)
  | .address none => some ([false, false], [])
  | .address (some value) => some (value.toBits, [])
  | .externalAddress value =>
    if value.length < 512 ∧ value.length ≤ 8 * value.data.length then
      some ([false, true] ++ Bits.ofNat 9 value.length ++
        (Bits.ofBytes value.data).take value.length, [])
    else none

end StoreCall

end BagOfCells
