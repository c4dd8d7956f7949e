import BagOfCells.Cell.Basic
import BagOfCells.Text.Hex

/-!
# The picture of a cell

A tree of cells is drawn one cell a line, each child one space further in than its parent. A line
shows the data as upper-case hexadecimal digits in braces; if the last digit is only begun, it is
filled up with the completion tag and an underscore follows. The name of an exotic kind stands
behind the braces.

## Main definitions

* `Cell.picture`: the picture of a tree
-/

namespace BagOfCells.Cell

/-- The digits of a bit string, with an underscore if the last one is only begun. -/
def digits (bits : Bits) : List Char :=
  if bits.length % 4 = 0 then Hex.encodeUpper bits
  else Hex.encodeUpper (bits ++ true :: List.replicate (3 - bits.length % 4) false) ++ ['_']

/-- The line of one cell. -/
def line (indent : Nat) (kind : CellKind) (bits : Bits) : List Char :=
  List.replicate indent ' ' ++ 'x' :: '\x7b' :: digits bits ++ '\x7d' ::
    (if kind.isExotic then ' ' :: kind.name.toList else []) ++ ['\n']

mutual
/-- The lines of a tree, in front of what follows them. -/
def lines (indent : Nat) : Cell → (later : List Char) → List Char
  | mk kind bits refs _ _, later => line indent kind bits ++ linesAll (indent + 1) refs later

/-- The lines of some trees, one after the other, in front of what follows them. -/
def linesAll (indent : Nat) : List Cell → (later : List Char) → List Char
  | [], later => later
  | cell :: cells, later => lines indent cell (linesAll indent cells later)
end

/-- The picture of a tree. -/
def picture (cell : Cell) : String := String.ofList (lines 0 cell [])

end BagOfCells.Cell
