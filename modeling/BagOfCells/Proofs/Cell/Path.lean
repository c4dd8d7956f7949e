import BagOfCells.Proofs.Cell.Collision

/-!
# Positions in a tree

A position in a tree of cells is a path, the list of the reference numbers that lead to it. A pruned
branch may stand for the cell at a position: the first hash and depth it stores are those of the
cell at level 0, so both show the same at that level.

## Main definitions

* `Cell.at? path`: the cell at the end of a path
* `Cell.OrdinaryTo path`: a path passes ordinary cells alone before its end
* `Cell.StandsFor branch cell`: a pruned branch stores the level 0 of a cell

## Main results

* `Cell.Sound.zero_eq`: what is hashed at level 0
* `Cell.StandsFor.zero_eq`: a pruned branch and the cell it stands for agree at level 0
-/

namespace BagOfCells.Cell

/-! ## Paths -/

/-- The cell at the end of a path of reference numbers. -/
def at? : (path : List Nat) → Cell → Option Cell
  | [], cell => some cell
  | i :: path, cell => cell.refs[i]?.bind (at? path)

/-- The cells that a path passes before its end are ordinary. -/
def OrdinaryTo : (path : List Nat) → Cell → Prop
  | [], _ => True
  | i :: path, cell => cell.kind = .ordinary ∧ ∀ ref, cell.refs[i]? = some ref → OrdinaryTo path ref

theorem at?_cons_eq_some_iff {i : Nat} {path : List Nat} {cell found : Cell} :
    cell.at? (i :: path) = some found ↔
      ∃ ref, cell.refs[i]? = some ref ∧ ref.at? path = some found := by
  rw [at?, Option.bind_eq_some_iff]

theorem Made.getElem? {cell ref : Cell} {i : Nat} (h : Made cell)
    (href : cell.refs[i]? = some ref) : Made ref :=
  h.refs (List.mem_of_getElem? href)

/-! ## Level 0 -/

section

variable {cell branch : Cell}

/-- **Level 0** of a cell that is no pruned branch: its data are hashed, and no level is shown in
the first descriptor. -/
theorem Sound.zero_eq (h : cell.Sound) (hk : cell.kind ≠ .prunedBranch) :
    cell.hashAt 0 = sha256 (cell.message 0) ∧
      cell.depthAt 0 = depthOver cell.refs (childLevel cell.kind 0) :=
  h.get_eq fun hp => hk hp.1

theorem message_zero (cell : Cell) :
    cell.message 0 = preimage (UInt8.ofNat (refsDescriptor cell.refs.length cell.isExotic .empty))
      (bitsDescriptorByte cell.bits.length) cell.tagged cell.refs (childLevel cell.kind 0) := by
  rw [message, descriptorAt, LevelMask.upTo_zero, body, if_pos (.inl rfl)]

/-- A pruned branch that stores the hash and depth of a cell at level 0 as its first ones. -/
structure StandsFor (branch cell : Cell) : Prop where
  made : Made branch
  kind : branch.kind = .prunedBranch
  hash : (branch.data.drop 2).take 32 = (cell.hashAt 0).bytes
  depth : Bytes.toNat ((branch.data.drop (2 + 32 * branch.mask.count)).take 2) = cell.depthAt 0

/-- The first hash and depth that a pruned branch stores are those it shows at level 0. -/
theorem Sound.stored_zero (h : branch.Sound) (hk : branch.kind = .prunedBranch) :
    (branch.hashAt 0).bytes = (branch.data.drop 2).take 32 ∧
      branch.depthAt 0 =
        Bytes.toNat ((branch.data.drop (2 + 32 * branch.mask.count)).take 2) := by
  have hs := h.suits
  rw [hk] at hs
  -- the mask of a pruned branch is not empty, so level 0 lies below it
  have hne : branch.mask.upTo 0 ≠ branch.mask := by
    rw [LevelMask.upTo_zero]
    exact hs.2.1.symm
  have hstored := h.stored hk hne
  rwa [LevelMask.upTo_zero, show LevelMask.empty.count = 0 from rfl] at hstored

/-- **A pruned branch** and the cell it stands for agree at level 0. -/
theorem StandsFor.zero_eq (h : branch.StandsFor cell) :
    branch.hashAt 0 = cell.hashAt 0 ∧ branch.depthAt 0 = cell.depthAt 0 := by
  obtain ⟨hhash, hdepth⟩ := h.made.sound.stored_zero h.kind
  exact ⟨digest_eq (hhash.trans h.hash), hdepth.trans h.depth⟩

end

end BagOfCells.Cell
