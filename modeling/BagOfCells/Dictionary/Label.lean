import BagOfCells.Builder.Integer
import BagOfCells.Slice.Integer

/-!
# Labels of a trie

An edge of a trie begins with a label, the bits that all keys below it share. With `m` bits of the
key still to come, a label of `n` bits has up to three forms; `k` is the width of `m`:

* short: `0`, then `n` in unary (ones closed by a zero), then the bits
* long: `10`, then `n` in `k` bits, then the bits
* same: `11`, then the one bit that fills the label, then `n` in `k` bits

The shortest is written; if several are, short goes before long and long before same. Each form is
read.

## Main definitions

* `Label.Form`, `Label.form m label`: the forms, and the one that is written
* `Label.pieces`, `Label.encode`: what a form consists of
* `Builder.storeLabel`, `Slice.loadLabel`
-/

namespace BagOfCells

namespace Label

/-- The form of a label. -/
inductive Form where
  | short
  | long
  | same
  deriving DecidableEq

/-- The width of a length of at most `m`. -/
def lengthWidth (m : Nat) : Nat := Bits.size m

/-- How many bits a form takes for a label of `n` bits. -/
def cost (m n : Nat) : Form → Nat
  | .short => 2 * n + 2
  | .long => 2 + lengthWidth m + n
  | .same => 3 + lengthWidth m

/-- Whether a label is one bit repeated. -/
def isUniform : Bits → Bool
  | [] => false
  | bit :: rest => rest.all (· == bit)

/-- The form in which a label is written. -/
def form (m : Nat) (label : Bits) : Form :=
  let n := label.length
  if isUniform label ∧ cost m n .same < min (cost m n .short) (cost m n .long) then .same
  else if cost m n .long < cost m n .short then .long
  else .short

/-- The parts of a label, one store each: a part that does not fit is not begun. -/
def pieces (m : Nat) (label : Bits) : Form → List Bits
  | .short => [false] :: List.replicate label.length [true] ++ [false] :: label.map ([·])
  | .long => [true, false] :: Bits.ofNat (lengthWidth m) label.length :: label.map ([·])
  | .same => [[true, true], label.take 1, Bits.ofNat (lengthWidth m) label.length]

/-- The bits of a label in the form in which it is written. -/
def encode (m : Nat) (label : Bits) : Bits := (pieces m label (form m label)).flatten

end Label

namespace Builder

/-- Stores the label of an edge with `m` bits of the key still to come. -/
def storeLabel (m : Nat) (label : Bits) : Store :=
  (Label.pieces m label (Label.form m label)).forM (append · [])

end Builder

namespace Slice

/-- A length of at most `m` in unary, of which `m - left` has been read. -/
def loadUnary (m : Nat) : (left : Nat) → Load Nat
  | 0 => do
    if ← loadBit then throw (.malformed (.labelTooLong m)) else return m
  | left + 1 => do
    if ← loadBit then loadUnary m left else return m - (left + 1)

/-- Some bits, one after the other. -/
def loadEach : Nat → Load Bits
  | 0 => return []
  | n + 1 => do
    let bit ← loadBit
    return bit :: (← loadEach n)

/-- A length of at most `m` in binary. -/
def loadLength (m : Nat) : Load Nat := do
  let n ← loadWord (Label.lengthWidth m)
  if n.toNat > m then throw (.malformed (.labelExceeds n.toNat m))
  return n.toNat

/-- The label of an edge with `m` bits of the key still to come. -/
def loadLabel (m : Nat) : Load Bits := do
  if ← loadBit then
    if ← loadBit then
      let bit ← loadBit
      return List.replicate (← loadLength m) bit
    else loadEach (← loadLength m)
  else loadEach (← loadUnary m m)

end Slice

end BagOfCells
