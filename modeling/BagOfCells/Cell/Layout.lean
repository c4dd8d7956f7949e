import BagOfCells.Cell.Basic
import BagOfCells.Checked

/-!
# Layouts of exotic cells

The bits and references of an exotic cell are fixed by its kind. A pruned branch holds its level
mask, then a hash for each level in the mask and level 0, then their depths. A library cell holds
one hash. A Merkle proof holds the hash and depth of its child at level 0, a Merkle update those of
its two children; seen through a Merkle cell the levels of the children move down by one.

## Main definitions

* `Layout.mask kind bits refs`: the level mask of a cell, or why there is no such cell
* `Layout.prunedHash`: the hash and depth number `i` in a pruned branch
-/

namespace BagOfCells.Layout

/-- The bits a stored hash and a stored depth take together. -/
def hashAndDepthBits : Nat := 8 * (32 + 2)

/-- A test that must hold. -/
def require (condition : Bool) (fault : LayoutFault) : Except CellError Unit :=
  if condition then .ok () else .error (.layout fault)

/-- The hash and depth of a child at level 0, as found in the data at the given byte offsets. -/
def checkChild (data : Bytes) (hashOffset depthOffset : Nat) (child : Cell) :
    Except CellError Unit := do
  let hash ← Checked.slice data hashOffset 32
  require (hash == (child.hashAt 0).bytes) .childHash
  let depth ← Checked.slice data depthOffset 2
  require (Bytes.toNat depth == child.depthAt 0) .childDepth

/-- The level mask of an ordinary cell: the levels of any child. -/
def ordinaryMask (refs : List Cell) : LevelMask :=
  refs.foldl (fun mask ref => mask.union ref.mask) .empty

/-- The level mask of a pruned branch: the second byte. -/
def prunedMask (bits : Bits) (data : Bytes) (refs : List Cell) : Except CellError LevelMask := do
  require refs.isEmpty .prunedReferences
  require (16 ≤ bits.length) .prunedTooShort
  let byte ← Checked.item data 1
  let mask := LevelMask.ofNat byte.toNat
  -- the mask keeps three bits of the byte; the other five must not be set
  require (mask != .empty && byte ≤ 7) (.prunedMask byte)
  let expected := 16 + mask.count * hashAndDepthBits
  require (bits.length == expected) (.prunedLength expected bits.length)
  return mask

/-- The level mask of a library cell: always empty. -/
def libraryMask (bits : Bits) (refs : List Cell) : Except CellError LevelMask := do
  require refs.isEmpty .libraryReferences
  require (bits.length == 8 + 256) (.libraryLength bits.length)
  return .empty

/-- The level mask of a Merkle proof: that of its child, one level lower. -/
def proofMask (bits : Bits) (data : Bytes) : List Cell → Except CellError LevelMask
  | [child] => do
    require (bits.length == 8 + hashAndDepthBits) (.proofLength bits.length)
    checkChild data 1 33 child
    return child.mask.lower
  | _ => .error (.layout .proofReferences)

/-- The level mask of a Merkle update: that of its children together, one level lower. -/
def updateMask (bits : Bits) (data : Bytes) : List Cell → Except CellError LevelMask
  | [before, after] => do
    require (bits.length == 8 + 2 * hashAndDepthBits) (.updateLength bits.length)
    -- both hashes stand in front of both depths
    checkChild data 1 65 before
    checkChild data 33 67 after
    return (before.mask.union after.mask).lower
  | _ => .error (.layout .updateReferences)

/-- An exotic cell begins with the byte of its kind. -/
def checkTypeByte (kind : CellKind) (bits : Bits) (data : Bytes) : Except CellError Unit :=
  match kind.typeByte? with
  | none => .ok ()
  | some byte => require (8 ≤ bits.length && data.head? == some byte) (.typeByte kind)

/-- The level mask of a cell of the given kind, bits and references, if there is such a cell. -/
def mask (kind : CellKind) (bits : Bits) (refs : List Cell) : Except CellError LevelMask := do
  let data := Bits.pack bits
  checkTypeByte kind bits data
  match kind with
  | .ordinary => return ordinaryMask refs
  | .prunedBranch => prunedMask bits data refs
  | .library => libraryMask bits refs
  | .merkleProof => proofMask bits data refs
  | .merkleUpdate => updateMask bits data refs

/-- The hash and depth number `i` stored in a pruned branch: behind the two leading bytes stand all
hashes, then all depths. -/
def prunedHash (mask : LevelMask) (bits : Bits) (i : Nat) : Except CellError LevelHash := do
  let data := Bits.pack bits
  let hash ← Checked.slice data (2 + 32 * i) 32
  let depth ← Checked.slice data (2 + 32 * mask.count + 2 * i) 2
  return ⟨.ofBytes hash, Bytes.toNat depth⟩

end BagOfCells.Layout
