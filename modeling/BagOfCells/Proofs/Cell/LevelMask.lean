import BagOfCells.Cell.LevelMask
import Mathlib.Order.Bounds.Basic
import Mathlib.Tactic.IntervalCases

/-!
# Significant levels

The significant levels of a mask are listed from below: level 0, then the levels whose bit is set.
`LevelMask.floor` is the last of them up to a level, and `LevelMask.passed` counts them.

## Main definitions

* `LevelMask.floor level`: the greatest significant level up to a level
* `LevelMask.passed level`: how many significant levels lie below a level

## Main results

* `LevelMask.isGreatest_floor`: what the first says
* `LevelMask.passed_succ_eq`: the count of a restricted mask is the place of its hash
* `LevelMask.upTo_eq_self_iff`: nothing is cut off from the level of the mask on
-/

namespace BagOfCells.LevelMask

variable {mask : LevelMask} {level : Nat}

/-- The greatest significant level up to a level. -/
def floor (mask : LevelMask) : (level : Nat) → Nat
  | 0 => 0
  | level + 1 => if mask.isSignificant (level + 1) then level + 1 else mask.floor level

/-- How many significant levels lie below a level. -/
def passed (mask : LevelMask) (level : Nat) : Nat :=
  (List.range level).countP mask.isSignificant

@[simp] theorem toNat_ofNat (n : Nat) : (ofNat n).toNat = n % 8 :=
  BitVec.toNat_ofNat n 3

@[simp] theorem ofNat_toNat (mask : LevelMask) : ofNat mask.toNat = mask := by
  unfold ofNat toNat
  rw [BitVec.ofNat_toNat, BitVec.setWidth_eq]

@[simp] theorem isSignificant_zero : mask.isSignificant 0 = true := rfl

theorem le_three_of_isSignificant (h : mask.isSignificant level = true) : level ≤ 3 := by
  by_contra hl
  have h0 : level ≠ 0 := by omega
  have hlt : mask.bits.toNat < 2 ^ (level - 1) :=
    mask.bits.isLt.trans_le (Nat.pow_le_pow_right (by omega) (by omega))
  simp [isSignificant, BitVec.getLsbD, h0, Nat.testBit_lt_two_pow hlt] at h

-- with levels up to three there are finitely many cases, which `decide` goes through
theorem le_level_of_isSignificant (h : mask.isSignificant level = true) : level ≤ mask.level := by
  have hl := le_three_of_isSignificant h
  obtain ⟨bits⟩ := mask
  interval_cases level <;> revert bits <;> decide

theorem isSignificant_level : mask.isSignificant mask.level = true := by
  obtain ⟨bits⟩ := mask
  revert bits
  decide

theorem upTo_of_three_le (h : 3 ≤ level) : mask.upTo level = mask.upTo 3 := by
  unfold upTo
  rw [show min level maxLevel = min 3 maxLevel by unfold maxLevel; omega]

theorem upTo_eq_self_iff : mask.upTo level = mask ↔ mask.level ≤ level := by
  rcases Nat.lt_or_ge level 3 with h | h
  · obtain ⟨bits⟩ := mask
    interval_cases level <;> revert bits <;> decide
  · rw [upTo_of_three_le h]
    refine iff_of_true ?_ (mask.level_le.trans h)
    obtain ⟨bits⟩ := mask
    revert bits
    decide

theorem passed_succ (mask : LevelMask) (level : Nat) :
    mask.passed (level + 1) = mask.passed level + if mask.isSignificant level then 1 else 0 := by
  simp [passed, List.range_succ]

/-- The significant levels up to a level are level 0 and one for each bit. -/
theorem passed_succ_eq (mask : LevelMask) (h : level ≤ 3) :
    mask.passed (level + 1) = (mask.upTo level).count + 1 := by
  obtain ⟨bits⟩ := mask
  interval_cases level <;> revert bits <;> decide

theorem count_upTo_lt (h : level < mask.level) : (mask.upTo level).count < mask.count := by
  have hl : level < 3 := h.trans_le mask.level_le
  obtain ⟨bits⟩ := mask
  interval_cases level <;> revert bits <;> decide

theorem count_upTo_eq_iff : (mask.upTo level).count = mask.count ↔ mask.level ≤ level := by
  constructor
  · intro h
    by_contra hl
    exact (count_upTo_lt (Nat.lt_of_not_le hl)).ne h
  · intro h
    rw [upTo_eq_self_iff.mpr h]

theorem floor_le : mask.floor level ≤ level := by
  induction level with
  | zero => exact Nat.le_refl 0
  | succ level ih =>
    rw [floor]
    split <;> omega

theorem isSignificant_floor (mask : LevelMask) (level : Nat) :
    mask.isSignificant (mask.floor level) = true := by
  induction level with
  | zero => rfl
  | succ level ih =>
    rw [floor]
    split
    · assumption
    · exact ih

/-- **The floor of a level** is the greatest significant level up to it. -/
theorem isGreatest_floor :
    IsGreatest {s | s ≤ level ∧ mask.isSignificant s = true} (mask.floor level) := by
  refine ⟨⟨floor_le, isSignificant_floor mask level⟩, ?_⟩
  intro s hs
  induction level with
  | zero => exact hs.1
  | succ level ih =>
    rw [floor]
    split
    · exact hs.1
    · -- the level is not significant, so it is not `s`
      next h =>
      refine ih ⟨?_, hs.2⟩
      rcases Nat.lt_or_ge s (level + 1) with hlt | hge
      · omega
      · exact absurd (Nat.le_antisymm hs.1 hge ▸ hs.2) h

theorem floor_of_level_le (h : mask.level ≤ level) : mask.floor level = mask.level :=
  Nat.le_antisymm (le_level_of_isSignificant (isSignificant_floor mask level))
    (isGreatest_floor.2 ⟨h, isSignificant_level⟩)

theorem floor_of_isSignificant (h : mask.isSignificant level = true) : mask.floor level = level :=
  Nat.le_antisymm floor_le (isGreatest_floor.2 ⟨le_rfl, h⟩)

/-- Where every level of one mask is one of the other, the floor is found through that of the
other. -/
theorem floor_floor {other : LevelMask}
    (h : ∀ s, mask.isSignificant s = true → other.isSignificant s = true) (level : Nat) :
    mask.floor (other.floor level) = mask.floor level := by
  apply Nat.le_antisymm
  · exact isGreatest_floor.2 ⟨floor_le.trans floor_le, isSignificant_floor ..⟩
  · have hsig := isSignificant_floor mask level
    have hle : mask.floor level ≤ other.floor level := isGreatest_floor.2 ⟨floor_le, h _ hsig⟩
    exact isGreatest_floor.2 ⟨hle, hsig⟩

theorem isSignificant_union (a b : LevelMask) (level : Nat) :
    (a.union b).isSignificant level = (a.isSignificant level || b.isSignificant level) := by
  unfold isSignificant union
  rw [BitVec.getLsbD_or]
  cases level == 0 <;> simp

theorem level_union (a b : LevelMask) : (a.union b).level = max a.level b.level := by
  obtain ⟨a⟩ := a
  obtain ⟨b⟩ := b
  revert a b
  decide

theorem level_le_lower : mask.level ≤ mask.lower.level + 1 := by
  obtain ⟨bits⟩ := mask
  revert bits
  decide

end BagOfCells.LevelMask
