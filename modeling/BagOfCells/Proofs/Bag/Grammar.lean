import BagOfCells.Proofs.Bag.ReadBack

/-!
# The grammar of a bag

The header of a bag is a row of fields. The magic number, the flags and the two sizes stand at fixed
offsets, the counts behind them take the announced size each. The grammar bounds the sizes, asks for
a root, and asks that roots and absent cells together do not outnumber the cells. A written bag
follows it in everything but the last.

## Main definitions

* `Bag.field`: a number at an offset in a bag
* `Bag.cellCount`, `Bag.rootCount`, `Bag.absentCount`: the counts in a header
* `Bag.Conforms`: the grammar

## Main results

* `Bag.cellCount_written`, `Bag.rootCount_written`: the counts in a written bag
* `Bag.conforms_written_iff`: when a written bag follows the grammar
-/

namespace BagOfCells.Bag

open Cell

/-- The number in the `size` bytes of a bag from an offset on. -/
def field (bag : Bytes) (offset size : Nat) : Nat :=
  Bytes.toNat ((bag.drop offset).take size)

/-- The byte behind the magic number: three flags, two reserved bits and the size of counts. -/
def flagsField (bag : Bytes) : Nat := field bag 4 1

/-- The size of counts and cell numbers. -/
def sizeField (bag : Bytes) : Nat := flagsField bag % 8

/-- The size of offsets. -/
def offsetField (bag : Bytes) : Nat := field bag 5 1

def cellCount (bag : Bytes) : Nat := field bag 6 (sizeField bag)

def rootCount (bag : Bytes) : Nat := field bag (6 + sizeField bag) (sizeField bag)

def absentCount (bag : Bytes) : Nat := field bag (6 + 2 * sizeField bag) (sizeField bag)

/-- The size of all records together. -/
def totalField (bag : Bytes) : Nat := field bag (6 + 3 * sizeField bag) (offsetField bag)

/-- The grammar of a bag: what its fields say, and how long it is. -/
structure Conforms (bag : Bytes) : Prop where
  magic : field bag 0 4 = magic
  reserved : (flagsField bag).testBit 3 = false ∧ (flagsField bag).testBit 4 = false
  size_le : sizeField bag ≤ 4
  offset_le : offsetField bag ≤ 8
  roots_pos : 1 ≤ rootCount bag
  counts_le : rootCount bag + absentCount bag ≤ cellCount bag
  length : bag.length = 6 + 3 * sizeField bag + offsetField bag + rootCount bag * sizeField bag +
    (if (flagsField bag).testBit 7 then cellCount bag * offsetField bag else 0) +
    totalField bag + (if (flagsField bag).testBit 6 then 4 else 0)

/-! ## The fields of a written bag -/

theorem field_append {front bytes rest : Bytes} {offset size : Nat} (ho : front.length = offset)
    (hs : bytes.length = size) :
    field (front ++ (bytes ++ rest)) offset size = Bytes.toNat bytes := by
  rw [field, ← ho, List.drop_left, ← hs, List.take_left]

section

variable {roots : List Cell} {flags : Flags} (fits : Written.Fits roots)

/-- A written bag from its front on, field by field. -/
theorem Written.bag_eq (roots : List Cell) (flags : Flags) :
    ∃ rest, Written.bag roots flags =
      Bytes.ofNat 4 magic ++ ([flags.byte (refSize roots)] ++ ([UInt8.ofNat (offsetSize roots)] ++
        (Bytes.ofNat (refSize roots) (order roots).length ++
          (Bytes.ofNat (refSize roots) roots.length ++ (Bytes.ofNat (refSize roots) 0 ++
            (Bytes.ofNat (offsetSize roots) (total roots) ++ rest)))))) := by
  refine ⟨(roots.map (number roots)).flatten ++
    (index roots flags ++ ((records roots).flatten ++ checksum roots flags)), ?_⟩
  simp only [bag, body, header, preamble, List.append_assoc]

theorem magic_written : field (Written.bag roots flags) 0 4 = magic := by
  obtain ⟨rest, h⟩ := Written.bag_eq roots flags
  rw [h]
  exact (field_append List.length_nil (Bytes.length_ofNat ..)).trans
    (Bytes.toNat_ofNat (by decide))

theorem flagsField_written :
    flagsField (Written.bag roots flags) = (flags.byte (Written.refSize roots)).toNat := by
  obtain ⟨rest, h⟩ := Written.bag_eq roots flags
  rw [h, flagsField, field_append (Bytes.length_ofNat ..) List.length_singleton,
    Bytes.toNat_singleton]

theorem length_written :
    (Written.bag roots flags).length = 6 + 3 * Written.refSize roots + Written.offsetSize roots +
      roots.length * Written.refSize roots +
      (if flags.hasIndex then (order roots).length * Written.offsetSize roots else 0) +
      Written.total roots + (if flags.hasCrc then 4 else 0) := by
  rw [Written.bag, Written.body, List.length_append, List.length_append, List.length_append,
    Written.length_header, Written.length_index, Written.length_checksum, Written.total]
  omega

include fits

theorem flags_written (flags : Flags) :
    (flags.byte (Written.refSize roots)).toNat % 8 = Written.refSize roots ∧
      (flags.byte (Written.refSize roots)).toNat.testBit 3 = false ∧
      (flags.byte (Written.refSize roots)).toNat.testBit 4 = false ∧
      (flags.byte (Written.refSize roots)).toNat.testBit 6 = flags.hasCrc ∧
      (flags.byte (Written.refSize roots)).toNat.testBit 7 = flags.hasIndex := by
  have h₁ : 1 ≤ Written.refSize roots := bytesNeeded_pos _
  have h₄ := Written.refSize_le fits.cells_lt
  -- sixteen bytes of flags in all
  generalize Written.refSize roots = size at h₁ h₄
  obtain ⟨hasIndex, hasCrc⟩ := flags
  have : size = 1 ∨ size = 2 ∨ size = 3 ∨ size = 4 := by omega
  rcases this with rfl | rfl | rfl | rfl <;> cases hasIndex <;> cases hasCrc <;> decide

theorem sizeField_written : sizeField (Written.bag roots flags) = Written.refSize roots := by
  rw [sizeField, flagsField_written, (flags_written fits flags).1]

theorem offsetField_written : offsetField (Written.bag roots flags) = Written.offsetSize roots := by
  obtain ⟨rest, h⟩ := Written.bag_eq roots flags
  rw [h, offsetField, ← List.append_assoc, field_append (by simp) List.length_singleton,
    Bytes.toNat_singleton, fits.toNat_offsetSize]

theorem cellCount_written : cellCount (Written.bag roots flags) = (order roots).length := by
  obtain ⟨rest, h⟩ := Written.bag_eq roots flags
  rw [cellCount, sizeField_written fits, h, ← List.append_assoc, ← List.append_assoc,
    field_append (by simp) (Bytes.length_ofNat ..)]
  exact Bytes.toNat_ofNat (lt_pow_bytesNeeded _)

theorem rootCount_written (hr : roots.length < 256 ^ Written.refSize roots) :
    rootCount (Written.bag roots flags) = roots.length := by
  obtain ⟨rest, h⟩ := Written.bag_eq roots flags
  rw [rootCount, sizeField_written fits, h, ← List.append_assoc, ← List.append_assoc,
    ← List.append_assoc, field_append (by simp; omega) (Bytes.length_ofNat ..)]
  exact Bytes.toNat_ofNat hr

theorem absentCount_written : absentCount (Written.bag roots flags) = 0 := by
  obtain ⟨rest, h⟩ := Written.bag_eq roots flags
  rw [absentCount, sizeField_written fits, h, ← List.append_assoc, ← List.append_assoc,
    ← List.append_assoc, ← List.append_assoc, field_append (by simp; omega) (Bytes.length_ofNat ..)]
  exact Bytes.toNat_ofNat (Nat.pow_pos (by omega))

theorem totalField_written : totalField (Written.bag roots flags) = Written.total roots := by
  obtain ⟨rest, h⟩ := Written.bag_eq roots flags
  rw [totalField, sizeField_written fits, offsetField_written fits, h, ← List.append_assoc,
    ← List.append_assoc, ← List.append_assoc, ← List.append_assoc, ← List.append_assoc,
    field_append (by simp; omega) (Bytes.length_ofNat ..)]
  exact Bytes.toNat_ofNat (lt_pow_bytesNeeded _)

/-- **A written bag** follows the grammar unless its roots outnumber its cells. -/
theorem conforms_written_iff (hne : roots ≠ [])
    (hr : roots.length < 256 ^ Written.refSize roots) :
    Conforms (Written.bag roots flags) ↔ roots.length ≤ (order roots).length := by
  obtain ⟨-, h₃, h₄, h₆, h₇⟩ := flags_written fits flags
  constructor
  · intro h
    have := h.counts_le
    rwa [rootCount_written fits hr, absentCount_written fits, cellCount_written fits] at this
  · intro hle
    refine ⟨magic_written, ?_, ?_, ?_, ?_, ?_, ?_⟩
    · rw [flagsField_written]
      exact ⟨h₃, h₄⟩
    · rw [sizeField_written fits]
      exact Written.refSize_le fits.cells_lt
    · rw [offsetField_written fits]
      exact fits.offsetSize_le
    · rw [rootCount_written fits hr]
      exact List.length_pos_iff.mpr hne
    · rw [rootCount_written fits hr, absentCount_written fits, cellCount_written fits]
      exact hle
    · rw [length_written, sizeField_written fits, offsetField_written fits,
        rootCount_written fits hr, cellCount_written fits, totalField_written fits,
        flagsField_written, h₆, h₇]

end

end BagOfCells.Bag
