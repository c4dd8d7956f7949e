/-!
# Level masks

A cell has a hash and a depth at each of four levels, 0 to 3. They differ from those of the level
below only at the significant levels: level 0, and the levels whose bit is set in the mask. Bit
`l - 1` of the mask belongs to level `l`; the level of a cell is the highest one with a bit.

## Main definitions

* `LevelMask`: three bits
* `LevelMask.level`, `LevelMask.count`: the highest significant level, and how many bits are set
* `LevelMask.upTo level`: the mask restricted to the levels up to `level`
* `LevelMask.isSignificant level`
* `LevelMask.union`, `LevelMask.lower`: the mask of a parent, and the one seen through a Merkle cell

## Main results

* `LevelMask.upTo_level`: nothing is cut off at the level of the mask
* `LevelMask.upTo_succ_of_not_isSignificant`: an insignificant level adds no bit
-/

namespace BagOfCells

/-- The levels above zero at which a cell has a hash of its own. -/
structure LevelMask where
  /-- The bit of level 1 is the lowest. -/
  bits : BitVec 3
  deriving DecidableEq

namespace LevelMask

/-- The mask of a cell without cut-off subtrees below it. -/
def empty : LevelMask := ⟨0⟩

instance : Inhabited LevelMask := ⟨empty⟩

/-- The highest level there is. -/
def maxLevel : Nat := 3

/-- The mask of the three low bits of a number. -/
def ofNat (n : Nat) : LevelMask := ⟨BitVec.ofNat 3 n⟩

/-- The mask as a number below eight. -/
def toNat (mask : LevelMask) : Nat := mask.bits.toNat

/-- The highest level with a bit; zero for the empty mask. -/
def level (mask : LevelMask) : Nat :=
  if mask.bits.getLsbD 2 then 3
  else if mask.bits.getLsbD 1 then 2
  else if mask.bits.getLsbD 0 then 1
  else 0

/-- How many bits are set. -/
def count (mask : LevelMask) : Nat :=
  (mask.bits.getLsbD 0).toNat + (mask.bits.getLsbD 1).toNat + (mask.bits.getLsbD 2).toNat

/-- The mask restricted to the levels up to `level`. -/
def upTo (mask : LevelMask) (level : Nat) : LevelMask :=
  -- as many ones as there are levels from level 1 on
  ⟨mask.bits &&& BitVec.ofNat 3 (1 <<< min level maxLevel - 1)⟩

/-- Whether a cell has a hash of its own at a level. -/
def isSignificant (mask : LevelMask) (level : Nat) : Bool :=
  level == 0 || mask.bits.getLsbD (level - 1)

/-- The levels of either mask. -/
def union (a b : LevelMask) : LevelMask := ⟨a.bits ||| b.bits⟩

/-- Every level moved down by one, level 1 dropped. -/
def lower (mask : LevelMask) : LevelMask := ⟨mask.bits >>> 1⟩

/-- Three binary digits. -/
def text (mask : LevelMask) : String :=
  String.ofList ([2, 1, 0].map fun i => if mask.bits.getLsbD i then '1' else '0')

/-! ## Laws -/

theorem toNat_lt (mask : LevelMask) : mask.toNat < 8 := mask.bits.isLt

theorem level_le (mask : LevelMask) : mask.level ≤ maxLevel := by
  unfold level maxLevel
  split <;> (try split) <;> (try split) <;> omega

theorem upTo_level (mask : LevelMask) : mask.upTo mask.level = mask := by
  obtain ⟨bits⟩ := mask
  revert bits
  decide

theorem upTo_zero (mask : LevelMask) : mask.upTo 0 = empty := by
  obtain ⟨bits⟩ := mask
  revert bits
  decide

theorem upTo_succ_of_not_isSignificant {mask : LevelMask} {level : Nat}
    (h : mask.isSignificant (level + 1) = false) : mask.upTo (level + 1) = mask.upTo level := by
  obtain ⟨bits⟩ := mask
  match level with
  | 0 | 1 | 2 => revert bits; decide
  | level + 3 => rw [upTo, upTo, show min (level + 3 + 1) maxLevel = min (level + 3) maxLevel by
      unfold maxLevel; omega]

end LevelMask

end BagOfCells
