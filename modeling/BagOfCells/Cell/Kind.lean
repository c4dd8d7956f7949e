/-!
# Kinds of cells

An ordinary cell holds data of its user. The four exotic kinds have a fixed layout, begin with a
byte that names the kind, and are hashed by rules of their own, so the kind is carried with a cell
and never guessed from its data.

## Main definitions

* `CellKind`: the five kinds
* `CellKind.typeByte?`, `CellKind.ofTypeByte?`: the byte an exotic cell begins with

## Main results

* `CellKind.ofTypeByte?_eq_some_iff`: the byte determines the kind and the kind its byte
-/

namespace BagOfCells

/-- The kind of a cell. -/
inductive CellKind where
  | ordinary
  /-- A subtree cut off, represented by its hashes and depths. -/
  | prunedBranch
  | library
  /-- The root of a tree from which subtrees have been cut off. -/
  | merkleProof
  /-- The roots of such a tree before and after a change. -/
  | merkleUpdate
  deriving DecidableEq, Inhabited

namespace CellKind

/-- The byte an exotic cell begins with. -/
def typeByte? : CellKind → Option UInt8
  | ordinary => none
  | prunedBranch => some 1
  | library => some 2
  | merkleProof => some 3
  | merkleUpdate => some 4

/-- The exotic kind a byte names. -/
def ofTypeByte? (byte : UInt8) : Option CellKind :=
  if byte = 1 then some prunedBranch
  else if byte = 2 then some library
  else if byte = 3 then some merkleProof
  else if byte = 4 then some merkleUpdate
  else none

def isExotic (kind : CellKind) : Bool :=
  kind != ordinary

/-- Whether the kind is a root of cut-off trees. -/
def isMerkle : CellKind → Bool
  | merkleProof | merkleUpdate => true
  | _ => false

/-- The name of the kind, in messages and in the picture of a cell. -/
def name : CellKind → String
  | ordinary => "Ordinary"
  | prunedBranch => "PrunedBranch"
  | library => "Library"
  | merkleProof => "MerkleProof"
  | merkleUpdate => "MerkleUpdate"

def ofName? (text : String) : Option CellKind :=
  [ordinary, prunedBranch, library, merkleProof, merkleUpdate].find? (·.name == text)

/-- **A byte names a kind** exactly when the kind begins with it. -/
theorem ofTypeByte?_eq_some_iff {byte : UInt8} {kind : CellKind} :
    ofTypeByte? byte = some kind ↔ kind.typeByte? = some byte := by
  unfold ofTypeByte?
  split
  · next h => subst h; cases kind <;> simp [typeByte?]
  split
  · next h => subst h; cases kind <;> simp [typeByte?]
  split
  · next h => subst h; cases kind <;> simp [typeByte?]
  split
  · next h => subst h; cases kind <;> simp [typeByte?]
  · cases kind <;> simp [typeByte?] <;> exact Ne.symm ‹_›

end CellKind

end BagOfCells
