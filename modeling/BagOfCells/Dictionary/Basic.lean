import BagOfCells.Dictionary.Key
import BagOfCells.Dictionary.Trie

/-!
# Dictionaries

A dictionary maps keys of one width to cells. Its entries are kept in ascending order of their keys,
so the same contents always make the same cells. In a cell it is a presence bit and, unless it is
empty, a reference to the cell of its trie. While such a cell is made or read, a key is spelled out
in memory, with a byte for each of its bits.

## Main definitions

* `Dictionary`, `Dictionary.empty width`
* `Dictionary.set`, `Dictionary.get`, `Dictionary.delete`: by a key in any form
* `Dictionary.toCell?`, `Dictionary.ofCell`: the cells of a dictionary
* `Builder.storeDictionary`, `Slice.loadDictionary`
-/

namespace BagOfCells

/-- A dictionary. -/
structure Dictionary where
  width : Nat
  /-- The entries, in ascending order of their keys. -/
  entries : List (Nat × Cell)
  deriving BEq

namespace Dictionary

/-- The dictionary without entries. -/
def empty (width : Nat) : Dictionary := ⟨width, []⟩

instance : Inhabited Dictionary := ⟨empty 256⟩

def size (d : Dictionary) : Nat := d.entries.length

def isEmpty (d : Dictionary) : Bool := d.entries.isEmpty

/-- Some entries with a value put under a key. -/
def insert (key : Nat) (value : Cell) : List (Nat × Cell) → List (Nat × Cell)
  | [] => [(key, value)]
  | (k, v) :: rest =>
    if key < k then (key, value) :: (k, v) :: rest
    else if key = k then (key, value) :: rest
    else (k, v) :: insert key value rest

/-- The number of a key, which must fit the width. -/
def index (d : Dictionary) (key : Key) : Except CellError Nat := do
  let n ← key.toNat d.width
  if Bits.size n > d.width then throw (.valueOutOfRange (.keyWidth n d.width))
  return n

/-- Puts a value under a key; the value it had goes with the result. -/
def set (d : Dictionary) (key : Key) (value : Cell) :
    Except CellError (Option Cell × Dictionary) := do
  let n ← d.index key
  return (d.entries.lookup n, { d with entries := insert n value d.entries })

/-- The value under a key. A number that does not fit the width has none. -/
def get (d : Dictionary) (key : Key) : Except CellError (Option Cell) := do
  return d.entries.lookup (← key.toNat d.width)

/-- Takes the value under a key away; it goes with the result. -/
def delete (d : Dictionary) (key : Key) : Except CellError (Option Cell × Dictionary) := do
  let n ← key.toNat d.width
  return (d.entries.lookup n, { d with entries := d.entries.filter (·.1 ≠ n) })

/-- The dictionary of some entries, put in one after the other. -/
def ofList (width : Nat) (entries : List (Key × Cell)) : Except CellError Dictionary :=
  entries.foldlM (fun d (key, value) => (d.set key value).map (·.2)) (empty width)

/-! ## Cells -/

/-- The trie of the entries. -/
def trie? (d : Dictionary) : Option Trie :=
  Trie.ofEntries d.width (d.entries.map fun (key, value) => (Bits.ofNat d.width key, value))

/-- The cell of a dictionary; an empty one has none. -/
def toCell? (d : Dictionary) : Except CellError (Option Cell) :=
  if d.isEmpty then .ok none
  else do
    -- the keys are spelled out before the first edge is made
    Checked.room d.width
    d.trie?.mapM (·.toCell d.width)

/-- The dictionary of a cell, with keys of `width` bits. -/
def ofCell (width : Nat) (cell : Cell) : Except CellError Dictionary := do
  -- room for a key is made before the cell is looked at
  Checked.room width
  let trie ← Trie.ofCell width cell
  return ⟨width, trie.toEntries.map fun (key, value) => (Bits.toNat key, value)⟩

end Dictionary

/-- Stores a dictionary: a zero bit if there is none or it is empty, otherwise a one bit and a
reference to its cell. -/
def Builder.storeDictionary (d : Option Dictionary) : Store := do
  let root ← ofExcept (d.mapM Dictionary.toCell?)
  storeMaybeRef root.join

/-- A dictionary with keys of `width` bits. -/
def Slice.loadDictionary (width : Nat) : Load Dictionary := do
  match ← loadMaybeRef with
  | none => return .empty width
  | some root => ofExcept (Dictionary.ofCell width root)

end BagOfCells
