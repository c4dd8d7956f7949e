import BagOfCells.Builder.Basic

/-!
# Snakes

A byte string too long for a cell is stored as a snake: whole bytes in the current cell, the rest in
a chain of ordinary cells of 127 bytes each, linked by their first references.

## Main definitions

* `Builder.storeSnake`, `Builder.storeSnakeString`: bytes and texts to a snake
* `Slice.loadSnake`, `Slice.loadSnakeString`: bytes and texts from a snake
-/

namespace BagOfCells

namespace Snake

/-- The whole bytes a cell holds. -/
def linkBytes : Nat := Cell.maxBits / 8

/-- A byte string cut into links. -/
def links (data : Bytes) : List Bytes :=
  if data.isEmpty then [] else data.take linkBytes :: links (data.drop linkBytes)
termination_by data.length
decreasing_by
  have : data.length ≠ 0 := by intro h; simp_all
  simp [linkBytes, Cell.maxBits]
  omega

/-- The chain of cells that hold some links. -/
def chain : List Bytes → Except CellError (Option Cell)
  | [] => .ok none
  | link :: rest => do
    let next ← chain rest
    let cell ← Cell.make .ordinary (Bits.ofBytes link) next.toList
    return some cell

/-- The bytes of a bit string, which must be whole. -/
def wholeBytes (bits : Bits) : Except CellError Bytes :=
  if bits.length % 8 = 0 then .ok (Bits.pack bits)
  else .error (.malformed (.snakeAlignment bits.length))

/-- The bytes of a chain of ordinary cells, linked by their first references. -/
def bytes : Cell → Except CellError Bytes
  | .mk kind bits refs _ _ => do
    if kind.isExotic then throw (.unsupportedKind kind)
    let head ← wholeBytes bits
    match refs with
    | [] => return head
    | next :: _ => return head ++ (← bytes next)

end Snake

namespace Builder

/-- Stores a byte string, in a chain of cells what does not fit the current one. -/
def storeSnake (data : Bytes) : Store := do
  let headLength := min data.length (← get).availableBytes
  let head := data.take headLength
  let tail := data.drop headLength
  if tail.isEmpty then storeBytes head
  else
    ensureFits (8 * headLength) 1
    let next ← ofExcept (Snake.chain (Snake.links tail))
    append (Bits.ofBytes head) next.toList

/-- Stores a text as a snake, behind a zero byte if it is marked. -/
def storeSnakeString (text : String) (marked : Bool) : Store :=
  storeSnake ((if marked then [0] else []) ++ text.toUTF8.toList)

end Builder

namespace Slice

/-- The bytes that are left of a snake, which begins in the slice. -/
def loadSnake : Load Bytes := do
  let s ← get
  -- bits that are no whole bytes are refused before anything is taken
  let head ← ofExcept (Snake.wholeBytes s.bits)
  let _ ← loadRemainingBits
  if s.refs.isEmpty then return head
  else
    let next ← loadRef
    return head ++ (← ofExcept (Snake.bytes next))

/-- The text that is left of a snake. -/
def loadSnakeString : Load String := do
  let data ← loadSnake
  match String.fromUTF8? ⟨data.toArray⟩ with
  | some text => return text
  | none => throw (.malformed .snakeText)

end Slice

end BagOfCells
