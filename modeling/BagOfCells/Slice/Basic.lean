import BagOfCells.Cell.Make

/-!
# Slices

A slice is a cell and what is still to be read of it: a rest of its bits and a rest of its
references. A load takes something from the front or fails; when it fails, whatever it had taken
before is gone, so the slice that is left is part of the outcome.

## Main definitions

* `Slice`, `Slice.ofCell`, `Slice.ordinary`: a slice over a whole cell
* `Load α`: a load, from a slice to an error or a value and, either way, to a slice
* `Slice.peekBits`, `Slice.loadBits`, `Slice.loadBit`, `Slice.skipBits`: bits
* `Slice.peekRef`, `Slice.loadRef`, `Slice.loadMaybeRef`, `Slice.skipRefs`: references
* `Slice.toCell`, `Slice.endParse`: everything that is left, and nothing
-/

namespace BagOfCells

/-- A cell and what is still to be read of it. -/
structure Slice where
  cell : Cell
  bits : Bits
  refs : List Cell

/-- A load: takes something from the front of a slice, or fails. -/
abbrev Load := EStateM CellError Slice

/-- A length, which must stay below `2 ^ 64`. -/
def checkedLength {σ : Type} (n : Nat) : EStateM CellError σ Nat :=
  if n < Bits.bound 64 then pure n else throw .overflow

namespace Slice

/-- A slice over a cell of any kind. -/
def ofCell (cell : Cell) : Slice := ⟨cell, cell.bits, cell.refs⟩

/-- A slice over an ordinary cell; an exotic one holds no data of the user. -/
def ordinary (cell : Cell) : Except CellError Slice :=
  if cell.isExotic then .error (.unsupportedKind cell.kind) else .ok (ofCell cell)

/-- How many bits have been read. -/
def bitPosition (s : Slice) : Nat := s.cell.bits.length - s.bits.length

/-- How many references have been read. -/
def refPosition (s : Slice) : Nat := s.cell.refs.length - s.refs.length

/-- Whether nothing is left. -/
def isEmpty (s : Slice) : Bool := s.bits.isEmpty && s.refs.isEmpty

/-- Whether `n` bits are left. -/
def canReadBits (s : Slice) (n : Nat) : Bool := n ≤ s.bits.length

/-- Whether `n` references are left. -/
def canReadRefs (s : Slice) (n : Nat) : Bool := n ≤ s.refs.length

/-! ## Bits -/

/-- Fails unless `n` bits are left. -/
def ensureBits (n : Nat) : Load Unit := do
  let s ← get
  if n > s.bits.length then throw (.underflow n s.bits.length)

/-- The next `n` bits, left in place. -/
def peekBits (n : Nat) : Load Bits := do
  ensureBits n
  return (← get).bits.take n

/-- Passes over `n` bits. -/
def skipBits (n : Nat) : Load Unit := do
  ensureBits n
  modify fun s => { s with bits := s.bits.drop n }

/-- The next `n` bits. -/
def loadBits (n : Nat) : Load Bits := do
  let bits ← peekBits n
  skipBits n
  return bits

/-- The next bit. -/
def loadBit : Load Bool := do
  let bits ← loadBits 1
  return bits.headD false

/-- The next `n` bytes. -/
def loadBytes (n : Nat) : Load Bytes := do
  let bits ← loadBits (← checkedLength (8 * n))
  return Bits.pack bits

/-- All bits that are left. -/
def loadRemainingBits : Load Bits := do
  loadBits (← get).bits.length

/-! ## References -/

/-- The reference `index` places ahead, left in place. -/
def peekRef (index : Nat) : Load Cell := do
  let s ← get
  match s.refs[index]? with
  | some ref => return ref
  | none => throw (.referenceOutOfRange index s.refs.length)

/-- The next reference. -/
def loadRef : Load Cell := do
  let ref ← peekRef 0
  modify fun s => { s with refs := s.refs.drop 1 }
  return ref

/-- Passes over `n` references. -/
def skipRefs (n : Nat) : Load Unit := do
  let s ← get
  if n > s.refs.length then throw (.referenceOutOfRange (n - 1) s.refs.length)
  set { s with refs := s.refs.drop n }

/-- A presence bit, then a reference if it is set. -/
def loadMaybeRef : Load (Option Cell) := do
  if ← loadBit then return some (← loadRef) else return none

/-- All references that are left. -/
def loadRemainingRefs : Load (List Cell) := do
  let s ← get
  set { s with refs := [] }
  return s.refs

/-! ## The whole slice -/

/-- Starts again at the front of the cell. -/
def reset : Load Unit :=
  modify fun s => ofCell s.cell

/-- Everything that is left, as an ordinary cell; an ordinary cell of which nothing has been read
is returned as it is. -/
def toCell : Load Cell := do
  let s ← get
  set { s with bits := [], refs := [] }
  if s.bitPosition = 0 ∧ s.refPosition = 0 ∧ s.cell.isExotic = false then return s.cell
  else ofExcept (Cell.make .ordinary s.bits s.refs)

/-- Fails unless everything has been read. -/
def endParse : Load Unit := do
  let s ← get
  if ¬ s.isEmpty then throw (.malformed (.leftover s.bits.length s.refs.length))

/-- Reads a whole cell, which must be ordinary and nothing of which may be left. -/
def parse {α : Type} (load : Load α) (cell : Cell) : Except CellError α :=
  match ordinary cell with
  | .error e => .error e
  | .ok s =>
    match (do let value ← load; endParse; return value : Load α) s with
    | .ok value _ => .ok value
    | .error e _ => .error e

end Slice

end BagOfCells
