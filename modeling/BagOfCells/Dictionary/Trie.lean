import BagOfCells.Dictionary.Label

/-!
# Tries

The entries of a dictionary form a binary trie: a leaf is a label and a value, a fork a label and
two tries, for the keys that go on with a zero and with a one. An edge is a cell. The cell of a leaf
is its label and, behind it, the contents of its value; the cell of a fork is its label and
references to the cells of its two tries.

## Main definitions

* `Trie`, `Trie.toEntries`: a trie and its entries, by key
* `Trie.ofEntries width entries`: the trie of some entries, each label as long as it can be
* `Trie.toCell width`, `Trie.ofCell width`: the cells of a trie with keys of `width` bits
-/

namespace BagOfCells

/-- A binary trie. -/
inductive Trie where
  | leaf (label : Bits) (value : Cell)
  | fork (label : Bits) (zero one : Trie)

namespace Trie

/-! ## Entries -/

/-- The entries of a trie, in ascending order. -/
def toEntries : Trie → List (Bits × Cell)
  | leaf label value => [(label, value)]
  | fork label zero one =>
    zero.toEntries.map (fun (key, value) => (label ++ false :: key, value)) ++
      one.toEntries.map (fun (key, value) => (label ++ true :: key, value))

/-- A trie below one more bit. -/
def consLabel (bit : Bool) : Trie → Trie
  | leaf label value => leaf (bit :: label) value
  | fork label zero one => fork (bit :: label) zero one

/-- The entries whose keys begin with a bit, without it. -/
def branch (bit : Bool) (entries : List (Bits × Cell)) : List (Bits × Cell) :=
  entries.filterMap fun
    | (first :: key, value) => if first = bit then some (key, value) else none
    | ([], _) => none

/-- The trie of some entries with keys of the given width; none has no trie. -/
def ofEntries : (width : Nat) → List (Bits × Cell) → Option Trie
  | _, [] => none
  | 0, (_, value) :: _ => some (leaf [] value)
  | width + 1, entries@(_ :: _) =>
    match ofEntries width (branch false entries), ofEntries width (branch true entries) with
    | none, none => none
    | some zero, none => some (zero.consLabel false)
    | none, some one => some (one.consLabel true)
    | some zero, some one => some (fork [] zero one)

/-! ## Cells -/

/-- The cell of a trie with keys of `width` bits. -/
def toCell (width : Nat) : Trie → Except CellError Cell
  | leaf label value => Builder.build do
    Builder.storeLabel width label
    Builder.storeCell value
  | fork label zero one => do
    -- a label that does not fit is refused before the tries below are looked at
    let b ← Builder.run (Builder.storeLabel width label) .empty
    let rest := width - label.length - 1
    let zero ← zero.toCell rest
    let one ← one.toCell rest
    (← Builder.run (Builder.append [] [zero, one]) b).endCell

/-- What stands behind a label: a value, or the cells of two tries. -/
inductive Node where
  | value (value : Cell)
  /-- The cells of the keys that go on with a zero and with a one. -/
  | fork (zero one : Cell)

/-- The node behind a label of `length` bits, of `width` bits still to come. -/
def loadNode (width length : Nat) : Load Node := do
  if length = width then return .value (← Slice.toCell)
  let s ← get
  match s.refs with
  | [zero, one] =>
    if s.bits.isEmpty then return .fork zero one
    else throw (.malformed (.fork s.bits.length s.refs.length))
  | _ => throw (.malformed (.fork s.bits.length s.refs.length))

/-- The label and the node of an edge with `width` bits still to come. -/
def loadEdge (width : Nat) (cell : Cell) : Except CellError (Bits × Node) :=
  match Slice.ordinary cell with
  | .error e => .error e
  | .ok s =>
    match (do
      let label ← Slice.loadLabel width
      return (label, ← loadNode width label.length) : Load (Bits × Node)) s with
    | .ok edge _ => .ok edge
    | .error e _ => .error e

/-- The trie of a cell, with keys of `width` bits. -/
def ofCell (width : Nat) (cell : Cell) : Except CellError Trie :=
  match loadEdge width cell with
  | .error e => .error e
  | .ok (label, .value value) => .ok (leaf label value)
  | .ok (label, .fork zero one) =>
    if h : label.length < width then do
      let zero ← ofCell (width - label.length - 1) zero
      let one ← ofCell (width - label.length - 1) one
      return fork label zero one
    else .error (.malformed (.labelExceeds label.length width))
termination_by width
decreasing_by all_goals omega

end Trie

end BagOfCells
