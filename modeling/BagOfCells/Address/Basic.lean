import BagOfCells.Sha256
import BagOfCells.Bits

/-!
# Addresses

An internal address names an account by a workchain, a number from -128 to 127, and the hash of the
account's initial state. Two flags, whether messages to it bounce and whether it is for tests only,
appear in its text but not in cells. An external address is a bit string.

## Main definitions

* `Address`, `Address.ofParts`
* `ExternalAddress`, `ExternalAddress.ofBytes`
-/

namespace BagOfCells

/-- An internal address. -/
structure Address where
  workchain : Int8
  /-- The hash of the account's initial state. -/
  account : Digest
  bounceable : Bool := true
  testOnly : Bool := false
  deriving DecidableEq

namespace Address

/-- The bits an internal address takes in a cell. -/
def width : Nat := 2 + 1 + 8 + 256

/-- The address of a workchain and an account, with the flags it has in cells. -/
def ofParts (workchain : Int8) (account : Digest) : Address := ⟨workchain, account, true, false⟩

/-- The same address with the flags it has in cells. -/
def plain (address : Address) : Address := ofParts address.workchain address.account

/-- The workchain as a byte, in two's complement. -/
def workchainByte (address : Address) : UInt8 := address.workchain.toUInt8

end Address

/-- An external address: the first `length` bits of some bytes. -/
structure ExternalAddress where
  data : Bytes
  /-- How many bits of them belong to the address. -/
  length : Nat
  deriving DecidableEq

/-- The external address of some whole bytes. -/
def ExternalAddress.ofBytes (data : Bytes) : ExternalAddress := ⟨data, 8 * data.length⟩

end BagOfCells
