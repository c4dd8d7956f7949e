import BagOfCells.Bits
import BagOfCells.Bytes
import BagOfCells.Error

/-!
# Checked operations

Looking up an item, cutting out a piece and computing with machine numbers have no answer for some
arguments. Each of these operations checks its arguments and fails with `CellError.outOfBounds` or
`CellError.overflow` where there is none.

## Main definitions

* `Checked.item`, `Checked.slice`: an item of a list, and a piece of it
* `Checked.word`, `Checked.minus`, `Checked.byte`: numbers of 64 and of eight bits
* `Checked.room`: room for a list in memory

## Main results

* `Checked.item_eq_ok_iff`, `Checked.slice_eq_ok`, `Checked.word_eq_ok`, `Checked.minus_eq_ok`,
  `Checked.byte_eq_ok`, `Checked.room_eq_ok`: when they have an answer
-/

namespace BagOfCells.Checked

variable {α : Type}

/-- The item of a list at an index. -/
def item (list : List α) (i : Nat) : Except CellError α :=
  match list[i]? with
  | some a => .ok a
  | none => .error .outOfBounds

/-- The next `size` items of a list from an index on. -/
def slice (list : List α) (start size : Nat) : Except CellError (List α) :=
  if start + size ≤ list.length then .ok ((list.drop start).take size) else .error .outOfBounds

/-- A number of 64 bits. -/
def word (n : Nat) : Except CellError Nat :=
  if n < Bits.bound 64 then .ok n else .error .overflow

/-- The difference of two numbers, of which the second must not be the greater one. -/
def minus (a b : Nat) : Except CellError Nat :=
  if b ≤ a then .ok (a - b) else .error .overflow

/-- A number of eight bits, as a byte. -/
def byte (n : Nat) : Except CellError UInt8 :=
  if n < 256 then .ok (UInt8.ofNat n) else .error .overflow

/-- Room for a list of `n` bytes, a number that must fit 63 bits. -/
def room (n : Nat) : Except CellError Unit :=
  if n < Bits.bound 63 then .ok () else .error .overflow

theorem item_eq_ok_iff {list : List α} {i : Nat} {a : α} :
    item list i = .ok a ↔ list[i]? = some a := by
  unfold item
  cases list[i]? <;> simp

theorem item_eq_ok {list : List α} {i : Nat} (h : i < list.length) : item list i = .ok list[i] :=
  item_eq_ok_iff.mpr (List.getElem?_eq_getElem h)

theorem slice_eq_ok {list : List α} {start size : Nat} (h : start + size ≤ list.length) :
    slice list start size = .ok ((list.drop start).take size) :=
  if_pos h

theorem word_eq_ok {n : Nat} (h : n < Bits.bound 64) : word n = .ok n :=
  if_pos h

theorem minus_eq_ok {a b : Nat} (h : b ≤ a) : minus a b = .ok (a - b) :=
  if_pos h

theorem byte_eq_ok {n : Nat} (h : n < 256) : byte n = .ok (UInt8.ofNat n) :=
  if_pos h

theorem room_eq_ok {n : Nat} (h : n < Bits.bound 63) : room n = .ok () :=
  if_pos h

theorem room_eq_overflow {n : Nat} (h : ¬ n < Bits.bound 63) : room n = .error .overflow :=
  if_neg h

end BagOfCells.Checked
