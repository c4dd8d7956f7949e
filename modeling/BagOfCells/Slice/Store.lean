import BagOfCells.Slice.Packed

/-!
# Storing what is left of a slice

What is left of a slice is stored without being read off: its bits are looked at, from whatever bit
of a byte they begin at, and put together in bytes, and then its references are looked at one by
one.

## Main definitions

* `PackedSlice.value load`: what a load gives of a slice that stays as it is
* `PackedBuilder.storeRest`: the store of what is left
-/

namespace BagOfCells

/-- What a load gives of a slice that stays as it is. -/
def PackedSlice.value {α : Type} (s : PackedSlice) (load : PackedLoad α) : Except CellError α :=
  match load s with
  | .ok a _ => .ok a
  | .error e _ => .error e

/-- Stores what is left of a slice, or nothing of it. -/
def PackedBuilder.storeRest (s : PackedSlice) : PackedStore := do
  let count ← ofExcept (s.value PackedSlice.remainingBits)
  let refCount ← ofExcept (s.value PackedSlice.remainingRefs)
  ensureFits count refCount
  let bytes ← ofExcept (s.value (PackedSlice.peekBits count))
  atomically do
    storeBits bytes count
    (List.range refCount).forM fun i => do
      storeRef (← ofExcept (s.value (PackedSlice.peekRef i)))

end BagOfCells
