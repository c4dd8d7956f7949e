import BagOfCells.Builder.Basic

/-!
# Inline or in a reference

A cell may be stored where it is or in a reference, as a selector bit tells: zero for inline, one
for a reference. It goes inline when it fits together with the selector, and into a reference
otherwise.

## Main definitions

* `Builder.storeEither`, `Slice.loadEither`
-/

namespace BagOfCells

/-- Stores a cell inline if it fits together with the selector, otherwise in a reference. -/
def Builder.storeEither (payload : Cell) : Store := do
  let b ← get
  if b.canFit (payload.bits.length + 1) payload.refs.length then
    storeBit false
    storeCell payload
  else storeMaybeRef (some payload)

/-- Loads what is stored inline or in a reference, with a load for either place. -/
def Slice.loadEither {α : Type} (inline : Load α) (inRef : Cell → Except CellError α) : Load α := do
  if ← loadBit then ofExcept (inRef (← loadRef)) else inline

end BagOfCells
