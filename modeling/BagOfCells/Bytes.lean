/-!
# Byte strings and fixed-width fields

A fixed-width field is a number written in a given count of bytes, its low part when it does not
fit. Fields are big-endian; the checksum trailer of a bag alone is little-endian.

## Main definitions

* `Bytes.ofNat size n`, `Bytes.toNat`: big-endian fields
* `Bytes.ofNatReversed size n`, `Bytes.toNatReversed`: little-endian fields

## Main results

* `Bytes.length_ofNat`: a field takes exactly its size
-/

namespace BagOfCells

abbrev Bytes := List UInt8

namespace Bytes

/-- The `size` low bytes of `n`, most significant first. -/
def ofNat : (size n : Nat) → Bytes
  | 0, _ => []
  | size + 1, n => UInt8.ofNat (n >>> (8 * size)) :: ofNat size n

/-- The number some bytes spell, most significant first. -/
def toNat (bytes : Bytes) : Nat :=
  bytes.foldl (fun n byte => 256 * n + byte.toNat) 0

/-- The `size` low bytes of `n`, least significant first. -/
def ofNatReversed (size n : Nat) : Bytes :=
  (ofNat size n).reverse

/-- The number some bytes spell, least significant first. -/
def toNatReversed (bytes : Bytes) : Nat :=
  toNat bytes.reverse

@[simp] theorem length_ofNat (size n : Nat) : (ofNat size n).length = size := by
  induction size with
  | zero => rfl
  | succ size ih => simp [ofNat, ih]

@[simp] theorem length_ofNatReversed (size n : Nat) : (ofNatReversed size n).length = size := by
  simp [ofNatReversed]

end Bytes

end BagOfCells
