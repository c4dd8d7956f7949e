import BagOfCells.Bag.Encode
import BagOfCells.Proofs.Bag.Order
import BagOfCells.Proofs.Bytes
import Mathlib.Algebra.Group.Action.Defs
import Mathlib.Algebra.Order.BigOperators.Group.List

/-!
# The bytes of a bag

The encoder finds the number of every cell it needs, so a bag of some roots is a concatenation of
known pieces: the header, the index, the records and the checksum. The sizes of the fields are those
that the counts and the offsets need, and all of it stays far below what a machine word counts.

## Main definitions

* `Bag.Written.header`, `Bag.Written.index`, `Bag.Written.records`, `Bag.Written.bag`: the pieces

## Main results

* `Bag.encode_eq`: the encoder gives their concatenation
* `Bag.Written.length_record_le`, `Bag.Written.total_le`: sizes
-/

namespace BagOfCells.Bag

open Cell Outcome

/-! ## Sizes of fields -/

theorem bytesNeeded_pos (n : Nat) : 1 ≤ bytesNeeded n := by
  unfold bytesNeeded
  split
  · exact le_rfl
  · next h =>
    have : ¬ Bits.size n ≤ 0 := by
      rw [Bits.size_le_iff, Bits.bound_eq]
      omega
    omega

theorem lt_pow_iff {n k : Nat} : n < 256 ^ k ↔ Bits.size n ≤ 8 * k := by
  rw [Bits.size_le_iff, Bits.bound_eq, Nat.pow_mul]

/-- A number fits the least field that holds it. -/
theorem lt_pow_bytesNeeded (n : Nat) : n < 256 ^ bytesNeeded n := by
  rw [lt_pow_iff]
  unfold bytesNeeded
  split
  · next h => simp [h, Bits.size]
  · omega

theorem bytesNeeded_le {n k : Nat} (hk : 1 ≤ k) (h : n < 256 ^ k) : bytesNeeded n ≤ k := by
  rw [lt_pow_iff] at h
  unfold bytesNeeded
  split <;> omega

/-! ## The pieces -/

namespace Written

variable (roots : List Cell) (flags : Flags)

/-- The size of cell numbers. -/
def refSize : Nat := bytesNeeded (order roots).length

/-- The number of a cell, in a field. -/
def number (cell : Cell) : Bytes := Bytes.ofNat (refSize roots) (place (order roots) cell)

/-- The record of a cell. -/
def record (cell : Cell) : Bytes :=
  cell.descriptors ++ (cell.tagged ++ (cell.refs.map (number roots)).flatten)

def records : List Bytes := (order roots).map (record roots)

/-- The size of all records together. -/
def total : Nat := (records roots).flatten.length

/-- The size of offsets. -/
def offsetSize : Nat := bytesNeeded (total roots)

/-- The magic number and the flags. -/
def preamble : Bytes := Bytes.ofNat 4 magic ++ [flags.byte (refSize roots)]

/-- Everything in front of the index: the flags, the sizes, the counts of cells, roots and absent
cells, the size of the records and the numbers of the roots. -/
def header : Bytes :=
  preamble roots flags ++ ([UInt8.ofNat (offsetSize roots)] ++
    (Bytes.ofNat (refSize roots) (order roots).length ++
      (Bytes.ofNat (refSize roots) roots.length ++ (Bytes.ofNat (refSize roots) 0 ++
        (Bytes.ofNat (offsetSize roots) (total roots) ++ (roots.map (number roots)).flatten)))))

def index : Bytes :=
  if flags.hasIndex then ((ends 0 (records roots)).map (Bytes.ofNat (offsetSize roots))).flatten
  else []

/-- Everything in front of the checksum. -/
def body : Bytes := header roots flags ++ (index roots flags ++ (records roots).flatten)

def checksum : Bytes :=
  if flags.hasCrc then Bytes.ofNatReversed 4 (Crc32c.checksum (body roots flags)).toNat else []

def bag : Bytes := body roots flags ++ checksum roots flags

end Written

/-! ## The encoder -/

section

variable {roots : List Cell} {flags : Flags} (inj : Set.InjOn Cell.hash (reachable roots))

include inj

theorem cellNumber_eq {cell : Cell} (h : cell ∈ reachable roots) :
    cellNumber (order roots) (Written.refSize roots) cell = .ok (Written.number roots cell) := by
  rw [cellNumber, number?_eq inj h, Written.number]

theorem record_eq {cell : Cell} (h : cell ∈ reachable roots) :
    record (order roots) (Written.refSize roots) cell = .ok (Written.record roots cell) := by
  rw [record, mapM_eq_map fun ref href => cellNumber_eq inj (reachable_ref h href),
    Written.record, ← List.append_assoc]
  rfl

/-- **The encoder** gives the concatenation of the pieces. -/
theorem encode_eq (hne : roots ≠ []) : encode roots flags = .ok (Written.bag roots flags) := by
  have hrecords : (order roots).mapM (record (order roots) (bytesNeeded (order roots).length)) =
      .ok (Written.records roots) :=
    mapM_eq_map fun cell hcell => record_eq inj ((mem_order_iff inj).mp hcell)
  have hnumbers : roots.mapM (cellNumber (order roots) (bytesNeeded (order roots).length)) =
      .ok (roots.map (Written.number roots)) :=
    mapM_eq_map fun root hroot => cellNumber_eq inj (reachable_self hroot)
  -- with the records and the numbers known, what is left is how the pieces are bracketed
  unfold encode
  rw [if_neg (by simpa using hne)]
  simp only [hrecords, hnumbers, bind, Except.bind, pure, Except.pure]
  unfold Written.bag Written.checksum Written.body Written.header Written.index Written.preamble
  cases flags.hasCrc <;> cases flags.hasIndex <;>
    simp [Written.refSize, Written.offsetSize, Written.total]

end

/-! ## Sizes of pieces -/

namespace Written

variable {roots : List Cell} {flags : Flags} {cell : Cell}

theorem length_number (cell : Cell) : (number roots cell).length = refSize roots :=
  Bytes.length_ofNat ..

theorem length_flatten_numbers (cells : List Cell) :
    ((cells.map (number roots)).flatten).length = cells.length * refSize roots := by
  simp [List.length_flatten, Function.comp_def, length_number]

theorem length_record :
    (record roots cell).length =
      2 + (cell.bits.length + 7) / 8 + cell.refs.length * refSize roots := by
  rw [record, List.length_append, List.length_append, length_flatten_numbers, tagged,
    Bits.length_pack_complete, descriptors]
  simp only [List.length_cons, List.length_nil]
  omega

theorem refSize_le (hn : (order roots).length < 256 ^ 4) : refSize roots ≤ 4 :=
  bytesNeeded_le (by omega) hn

/-- A record takes at most two bytes of descriptors, 128 of data and sixteen of references. -/
theorem length_record_le (hn : (order roots).length < 256 ^ 4) (hc : cell.Sound) :
    (record roots cell).length ≤ 146 := by
  have hb := hc.bits_le
  have hr := hc.refs_le
  unfold maxBits at hb
  unfold maxRefs at hr
  rw [length_record]
  -- at most four references of at most four bytes
  have : cell.refs.length * refSize roots ≤ 4 * 4 := Nat.mul_le_mul hr (refSize_le hn)
  omega

theorem length_flatten_le {records : List Bytes} {size : Nat}
    (h : ∀ record ∈ records, record.length ≤ size) :
    records.flatten.length ≤ records.length * size := by
  have hle := List.sum_le_card_nsmul (records.map List.length) size (by simpa using h)
  rwa [List.length_map, smul_eq_mul, ← List.length_flatten] at hle

theorem le_length_flatten {records : List Bytes} {size : Nat}
    (h : ∀ record ∈ records, size ≤ record.length) :
    records.length * size ≤ records.flatten.length := by
  have hle := List.card_nsmul_le_sum (records.map List.length) size (by simpa using h)
  rwa [List.length_map, smul_eq_mul, ← List.length_flatten] at hle

/-- The size of all records together. -/
theorem total_le (hn : (order roots).length < 256 ^ 4) (hs : ∀ cell ∈ order roots, cell.Sound) :
    total roots ≤ 146 * 256 ^ 4 := by
  have hle : ∀ record ∈ records roots, record.length ≤ 146 := by
    simp only [records, List.mem_map]
    rintro _ ⟨cell, hcell, rfl⟩
    exact length_record_le hn (hs cell hcell)
  have := length_flatten_le hle
  rw [records, List.length_map] at this
  rw [total, records]
  omega

end Written

end BagOfCells.Bag
