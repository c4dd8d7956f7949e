import BagOfCells.Proofs.Cell.Made

/-!
# Heights

The depth of a cell is read off its children at the level of the cell, one higher in a Merkle cell.
No child has levels above that one, so what is read is its own depth, and the depth of a made cell
is the length of the longest chain of references below it, whatever kinds of cells the chain runs
through.

## Main definitions

* `Cell.height`: the length of the longest chain of references

## Main results

* `Cell.Made.depth_eq`: the depth of a made cell is its height
-/

namespace BagOfCells.Cell

mutual
/-- The length of the longest chain of references from a cell. -/
def height : Cell → Nat
  | .mk _ _ refs _ _ => heightOver refs

/-- The length of the longest chain of references from a cell with the given references. -/
def heightOver : List Cell → Nat
  | [] => 0
  | ref :: refs => max (height ref + 1) (heightOver refs)
end

theorem height_eq (cell : Cell) : cell.height = heightOver cell.refs := by
  cases cell
  rw [height]
  rfl

theorem depthOver_cons (ref : Cell) (refs : List Cell) (child : Nat) :
    depthOver (ref :: refs) child = max (ref.depthAt child + 1) (depthOver refs child) := by
  unfold depthOver
  rcases refs with _ | ⟨next, refs⟩
  · simp [Nat.add_comm]
  · simp only [reduceCtorEq, if_false, List.map_cons, List.foldr_cons]
    omega

/-- Children that show their heights at a level. -/
theorem depthOver_eq_heightOver {refs : List Cell} {child : Nat}
    (h : ∀ ref ∈ refs, ref.depthAt child = ref.height) :
    depthOver refs child = heightOver refs := by
  induction refs with
  | nil => simp [depthOver, heightOver]
  | cons ref refs ih =>
    rw [depthOver_cons, heightOver, h ref List.mem_cons_self,
      ih fun ref href => h ref (List.mem_cons_of_mem _ href)]

/-- **The depth** of a made cell is its height. -/
theorem Made.depth_eq {cell : Cell} (h : Made cell) : cell.depth = cell.height := by
  induction cell using induction_refs with
  | step cell ih =>
    rw [h.sound.top_eq.2, height_eq]
    apply depthOver_eq_heightOver
    intro ref href
    -- the level at which the children are read is not below their own levels
    have hl : ref.level ≤ childLevel cell.kind cell.level := h.sound.suits.level_le href
    rw [((h.refs href).sound.get_top hl).2, ih ref href (h.refs href)]

end BagOfCells.Cell
