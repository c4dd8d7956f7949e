import BagOfCells.Cell.Basic

/-!
# The order of cells in a bag

A bag lists every cell that can be reached from its roots once, each before the cells it refers to.
Cells are told apart by their hashes.

## Main definitions

* `Bag.visit`, `Bag.visitAll`: a cell, or some cells, put in front of what is listed already
* `Bag.order roots`: the list
* `Bag.number? cells cell`: the place of a cell in it
-/

namespace BagOfCells.Bag

mutual
/-- A cell put in front of what is listed already, once the cells it refers to have been; a cell
that is listed already stays where it is. -/
def visit : (cell : Cell) → (listed : List Cell) → List Cell
  | .mk kind bits refs mask hashes, listed =>
    let cell := Cell.mk kind bits refs mask hashes
    -- the later references are visited first, so that they end up behind the earlier ones
    if listed.any (· == cell) then listed else cell :: visitAll refs listed

/-- Some cells put in front of what is listed already, the last one first. -/
def visitAll : (cells listed : List Cell) → List Cell
  | [], listed => listed
  | cell :: cells, listed => visit cell (visitAll cells listed)
end

/-- The cells that can be reached from some roots, each before the cells it refers to. -/
def order (roots : List Cell) : List Cell := visitAll roots []

/-- The place of a cell among some cells. -/
def number? (cells : List Cell) (cell : Cell) : Option Nat := cells.findIdx? (· == cell)

end BagOfCells.Bag
