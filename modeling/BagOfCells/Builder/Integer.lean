import BagOfCells.Builder.Basic

/-!
# Storing numbers

Numbers of a given width are stored in two ways: from a machine word by shifts and masks, up to 64
bits, and as a number of any width. Both refuse a number that its width cannot hold, and then one
whose width the builder cannot hold. A number of variable length is preceded by its length in bytes.

## Main definitions

* `Builder.storeWord`, `Builder.storeSignedWord`: machine words
* `Builder.storeLowBits`: the low bits of a machine word, whatever is above them
* `Builder.storeNat`, `Builder.storeInt`: numbers of any width
* `Builder.storeVarNat`, `Builder.storeCoins`: numbers of variable length
-/

namespace BagOfCells.Builder

/-! ## Numbers of any width -/

/-- Stores a number in `width` bits. -/
def storeNat (value width : Nat) : Store := do
  if Bits.size value > width then throw (.valueOutOfRange (.unsigned value width))
  ensureFits width 0
  append (Bits.ofNat width value) []

/-- Stores a number in `width` bits, in two's complement. -/
def storeInt (value : Int) (width : Nat) : Store := do
  if width = 0 then
    if value ≠ 0 then throw (.valueOutOfRange (.unsigned value 0))
  else
    if Bits.signedSize value > width then throw (.valueOutOfRange (.signed value width))
    ensureFits width 0
    append (Bits.ofInt width value) []

/-! ## Machine words -/

/-- Stores the `width` low bits of a machine word. -/
def storeLowBits (word : UInt64) (width : Nat) : Store := do
  if width > 64 then throw (.valueOutOfRange (.wordStore width))
  append (Bits.ofWord width word) []

/-- Stores a machine word in `width` bits. -/
def storeWord (word : UInt64) (width : Nat) : Store := do
  if width > 64 then storeNat word.toNat width
  else
    if width < 64 ∧ word >>> width.toUInt64 ≠ 0 then
      throw (.valueOutOfRange (.unsigned word.toNat width))
    storeLowBits word width

/-- Whether a signed machine word fits `width` bits, for widths up to 64. -/
def signedWordFits (word : Int64) (width : Nat) : Bool :=
  if width = 0 then word == 0
  else if width = 64 then true
  else
    -- the least width whose bound does not fit a signed word is 64
    let bound : Int64 := 1 <<< (Int64.ofNat (width - 1))
    word ≥ -bound && word < bound

/-- Stores a signed machine word in `width` bits. -/
def storeSignedWord (word : Int64) (width : Nat) : Store := do
  if width > 64 then storeInt word.toInt width
  else
    if ¬ signedWordFits word width then throw (.valueOutOfRange (.signed word.toInt width))
    storeLowBits word.toUInt64 width

/-! ## Numbers of variable length -/

/-- Stores the length of a number in bytes, in `lengthBits` bits, then the number. -/
def storeVarNat (value lengthBits : Nat) : Store := do
  let length := (Bits.size value + 7) / 8
  -- no more than sixteen bits of the length are ever used
  let limit := Bits.bound (min lengthBits 16) - 1
  if length > limit then throw (.valueOutOfRange (.variableLength value length limit))
  ensureFits (← checkedLength (lengthBits + 8 * length)) 0
  storeWord length.toUInt64 lengthBits
  storeNat value (8 * length)

/-- Stores an amount. -/
def storeCoins (amount : Nat) : Store := storeVarNat amount 4

/-! ## Stores that must succeed -/

/-- A store that should never fail has failed. -/
structure Abort where
  call : String
  cause : CellError

/-- The text of an abort. -/
def Abort.message (abort : Abort) : String :=
  abort.call ++ ": " ++ abort.cause.message

/-- A store that must succeed. -/
abbrev MustStore := EStateM Abort Builder Unit

/-- Runs a store that must succeed. -/
def must (call : String) (store : Store) : MustStore :=
  EStateM.adaptExcept (⟨call, ·⟩) store

/-- Stores a machine word that must fit. -/
def mustStoreWord (word : UInt64) (width : Nat) : MustStore :=
  must s!"must_store_uint({word.toNat}, {width})" (storeWord word width)

/-- Stores a signed machine word that must fit. -/
def mustStoreSignedWord (word : Int64) (width : Nat) : MustStore :=
  must s!"must_store_int({word.toInt}, {width})" (storeSignedWord word width)

/-- Stores a bit that must fit. -/
def mustStoreBit (bit : Bool) : MustStore :=
  must "must_store_bit" (storeBit bit)

/-- Stores some bytes that must fit. -/
def mustStoreBytes (data : Bytes) : MustStore :=
  must s!"must_store_bytes({data.length} bytes)" (storeBytes data)

/-- Stores a reference that must fit. -/
def mustStoreRef (cell : Cell) : MustStore :=
  must "must_store_ref" (storeRef cell)

end BagOfCells.Builder
