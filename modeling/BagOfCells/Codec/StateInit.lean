import BagOfCells.Codec.Basic

/-!
# The initial state of a contract

A contract starts from a state: its code and data, libraries, an optional split depth of five bits
and optional flags for contracts that run at the beginning or the end of each block. The hash of the
cell of the state is the account of the contract.

## Main definitions

* `TickTock`, `Library`, `StateInit` and their codecs
* `StateInit.addLibrary`: one more library, under the hash of its root
* `StateInit.address`: the address of the contract
-/

namespace BagOfCells

/-- Whether a contract runs at the beginning and at the end of each block. -/
structure TickTock where
  tick : Bool
  tock : Bool
  deriving DecidableEq

/-- The codec of tick and tock: two bits. -/
def TickTock.codec : Codec TickTock where
  load := return ⟨← Slice.loadBit, ← Slice.loadBit⟩
  store value := do
    Builder.storeBit value.tick
    Builder.storeBit value.tock

/-- A library of a contract. -/
structure Library where
  isPublic : Bool
  root : Cell
  deriving BEq

/-- The codec of a library: a bit and a reference. -/
def Library.codec : Codec Library where
  load := return ⟨← Slice.loadBit, ← Slice.loadRef⟩
  store value := do
    Builder.storeBit value.isPublic
    Builder.storeRef value.root

/-- The state a contract starts from. -/
structure StateInit where
  splitDepth : Option UInt8 := none
  special : Option TickTock := none
  code : Option Cell := none
  data : Option Cell := none
  /-- The libraries, by the hashes of their roots. -/
  library : Dictionary := .empty 256
  deriving BEq

namespace StateInit

/-- The bits of a split depth. -/
def splitDepthWidth : Nat := 5

def loadSplitDepth : Load (Option UInt8) := do
  if ← Slice.loadBit then return some (← Slice.loadWord splitDepthWidth).toUInt8 else return none

def storeSplitDepth : Option UInt8 → Store
  | none => Builder.storeBit false
  | some depth => do
    if depth.toNat ≥ Bits.bound splitDepthWidth then
      throw (.valueOutOfRange (.splitDepth depth.toNat))
    Builder.storeBit true
    Builder.storeWord depth.toUInt64 splitDepthWidth

def codec : Codec StateInit where
  load := do
    let splitDepth ← loadSplitDepth
    let special ← TickTock.codec.maybe.load
    let code ← Slice.loadMaybeRef
    let data ← Slice.loadMaybeRef
    let library ← (Codec.dictionary 256).load
    return { splitDepth, special, code, data, library }
  store state := do
    storeSplitDepth state.splitDepth
    TickTock.codec.maybe.store state.special
    Builder.storeMaybeRef state.code
    Builder.storeMaybeRef state.data
    (Codec.dictionary 256).store state.library

/-- A state with one more library, under the hash of its root. -/
def addLibrary (state : StateInit) (library : Library) : Except CellError StateInit := do
  let key := Key.number (Bytes.toNat library.root.hash.bytes)
  return { state with library := ← state.library.setValue Library.codec key library }

/-- The address of the contract that starts from a state. -/
def address (state : StateInit) (workchain : Int8) : Except CellError Address :=
  (codec.hash state).map (Address.ofParts workchain)

end StateInit

end BagOfCells
