import BagOfCells.Address.Basic
import BagOfCells.Builder.Integer
import BagOfCells.Slice.Integer

/-!
# Addresses in cells

The first two bits tell the form: `00` is no address, `01` an external one with its length in nine
bits, `10` an internal one. An internal address has no anycast part (a zero bit), then its workchain
in eight bits and its account. The fourth form, `11`, is not supported.

## Main definitions

* `Builder.storeAddress`, `Builder.storeExternalAddress`
* `Slice.loadAddress`, `Slice.loadExternalAddress`
* `Address.toBits`: the bits of an internal address
-/

namespace BagOfCells

/-- The bits of an internal address in a cell. -/
def Address.toBits (address : Address) : Bits :=
  [true, false, false] ++ Bits.ofInt 8 address.workchain.toInt ++
    Bits.ofBytes address.account.bytes

namespace Builder

/-- Stores an internal address, or that there is none. -/
def storeAddress : Option Address → Store
  | none => storeWord 0 2
  | some address => do
    ensureFits Address.width 0
    storeWord 0b10 2
    storeBit false
    storeSignedWord (Int64.ofInt address.workchain.toInt) 8
    storeBytes address.account.bytes

/-- Stores an external address. What precedes a part that cannot be stored stays behind. -/
def storeExternalAddress (address : ExternalAddress) : Store := do
  ensureFits (← checkedLength (2 + 9 + address.length)) 0
  storeWord 0b01 2
  storeWord address.length.toUInt64 9
  storeBits address.data address.length

end Builder

namespace Slice

/-- An internal address, or none. -/
def loadAddress : Load (Option Address) := do
  let form ← peekWord 2
  if form = 0b00 then
    skipBits 2
    return none
  else if form = 0b10 then
    ensureBits Address.width
    skipBits 2
    if ← loadBit then throw (.malformed .anycast)
    let workchain ← loadSignedWord 8
    let account ← loadBytes 32
    return some (.ofParts workchain.toInt8 (.ofBytes account))
  else if form = 0b01 then throw (.malformed .externalAddress)
  else throw (.malformed .variableAddress)

/-- An external address. -/
def loadExternalAddress : Load ExternalAddress := do
  let form ← peekWord 2
  if form ≠ 0b01 then throw (.tagMismatch 0b01 form.toNat)
  skipBits 2
  let length ← loadWord 9
  let bits ← loadBits length.toNat
  return ⟨Bits.pack bits, length.toNat⟩

end Slice

end BagOfCells
