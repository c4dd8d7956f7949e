import BagOfCells.Slice.Packed

/-!
# Load calls

A slice is read by calls, one after the other, of which some fail. A call that fails may have read
something already, and the next one goes on from there.

## Main definitions

* `LoadCall`, `Loaded`: a load and its arguments, and what it gives
* `LoadCall.run`, `LoadCall.runAll`: what a call does to a slice, and what some calls leave
-/

namespace BagOfCells

/-- What a load gives. -/
inductive Loaded where
  | nothing
  | bit (value : Bool)
  | bytes (value : Bytes)
  | word (value : UInt64)
  | signedWord (value : Int64)
  | nat (value : Nat)
  | int (value : Int)
  | cell (value : Cell)
  | maybeCell (value : Option Cell)
  | cells (value : List Cell)
  | text (value : String)
  | address (value : Option Address)
  | externalAddress (value : ExternalAddress)
  | dictionary (value : Dictionary)

/-- A load and its arguments. A truth value is a bit; a number of one, two, four or eight bytes is a
word; an amount of any size is a number of variable length with four bits for its length. -/
inductive LoadCall where
  | bit
  | peekBits (count : Nat)
  | bits (count : Nat)
  | bytes (count : Nat)
  | remainingBits
  | skipBits (count : Nat)
  | peekWord (width : Nat)
  | word (width : Nat)
  | signedWord (width : Nat)
  | nat (width : Nat)
  | int (width : Nat)
  | varWord (lengthBits : Nat)
  | varNat (lengthBits : Nat)
  | coins
  | ref
  | peekRef (index : Nat)
  | maybeRef
  | skipRefs (count : Nat)
  | remainingRefs
  | dictionary (width : Nat)
  | snake
  | snakeText
  | address
  | externalAddress
  | toCell
  | endParse
  | reset

namespace LoadCall

open PackedSlice

/-- What a call does to a slice. -/
def run : LoadCall → PackedLoad Loaded
  | .bit => .bit <$> loadBit
  | .peekBits count => .bytes <$> PackedSlice.peekBits count
  | .bits count => .bytes <$> loadBits count
  | .bytes count => .bytes <$> loadBytes count
  | .remainingBits => .bytes <$> loadRemainingBits
  | .skipBits count => (fun _ => .nothing) <$> PackedSlice.skipBits count
  | .peekWord width => .word <$> PackedSlice.peekWord width
  | .word width => .word <$> loadWord width
  | .signedWord width => .signedWord <$> loadSignedWord width
  | .nat width => .nat <$> loadNat width
  | .int width => .int <$> loadInt width
  | .varWord lengthBits => .word <$> loadVarWord lengthBits
  | .varNat lengthBits => .nat <$> loadVarNat lengthBits
  | .coins => .nat <$> loadCoins
  | .ref => .cell <$> loadRef
  | .peekRef index => .cell <$> PackedSlice.peekRef index
  | .maybeRef => .maybeCell <$> loadMaybeRef
  | .skipRefs count => (fun _ => .nothing) <$> PackedSlice.skipRefs count
  | .remainingRefs => .cells <$> loadRemainingRefs
  | .dictionary width => .dictionary <$> loadDictionary width
  | .snake => .bytes <$> loadSnake
  | .snakeText => .text <$> loadSnakeString
  | .address => .address <$> loadAddress
  | .externalAddress => .externalAddress <$> loadExternalAddress
  | .toCell => .cell <$> PackedSlice.toCell
  | .endParse => (fun _ => .nothing) <$> PackedSlice.endParse
  | .reset => (fun _ => .nothing) <$> PackedSlice.reset

/-- What a call leaves of a slice, whether it succeeds or not. -/
def left (call : LoadCall) (s : PackedSlice) : PackedSlice :=
  match call.run s with
  | .ok _ s' => s'
  | .error _ s' => s'

/-- What some calls leave of a slice. -/
def runAll : List LoadCall → PackedSlice → PackedSlice
  | [], s => s
  | call :: calls, s => runAll calls (left call s)

end LoadCall

end BagOfCells
