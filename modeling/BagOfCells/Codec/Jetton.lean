import BagOfCells.Codec.Basic
import BagOfCells.Snake

/-!
# Transfers of jettons

The message that asks a jetton wallet to transfer an amount to another owner, possibly with coins
and a payload to forward. A text comment is such a payload: thirty-two zero bits and a snake.

## Main definitions

* `JettonTransfer`, `JettonTransfer.codec`
* `JettonTransfer.new`, and what is set of a transfer: `JettonTransfer.withQueryId`,
  `JettonTransfer.withResponseDestination`, `JettonTransfer.withForwardAmount`,
  `JettonTransfer.withForwardPayload`, `JettonTransfer.withComment`
-/

namespace BagOfCells

/-- A transfer of jettons. -/
structure JettonTransfer where
  queryId : UInt64 := 0
  amount : Nat
  destination : Address
  /-- Where the confirmation and the rest of the coins go. -/
  responseDestination : Option Address := none
  customPayload : Option Cell := none
  forwardAmount : Nat := 0
  forwardPayload : Cell := .empty
  deriving BEq

namespace JettonTransfer

/-- A transfer of an amount to a new owner. -/
def new (destination : Address) (amount : Nat) : JettonTransfer := { amount, destination }

/-- The constant a transfer begins with. -/
def tag : UInt64 := 0x0f8a7ea5

/-- The codec of the forward payload: a cell inline if it fits, otherwise in a reference. -/
def payloadCodec : Codec Cell := Codec.rest.either

/-- The codec of a transfer behind its constant. -/
def bodyCodec : Codec JettonTransfer where
  load := do
    let queryId ← Slice.loadWord 64
    let amount ← Codec.coins.load
    let destination ← Codec.address.load
    let responseDestination ← Codec.addressOrNone.load
    let customPayload ← Slice.loadMaybeRef
    let forwardAmount ← Codec.coins.load
    let forwardPayload ← payloadCodec.load
    return { queryId, amount, destination, responseDestination, customPayload, forwardAmount,
             forwardPayload }
  store transfer := do
    Builder.storeLowBits transfer.queryId 64
    Codec.coins.store transfer.amount
    Codec.address.store transfer.destination
    Codec.addressOrNone.store transfer.responseDestination
    Builder.storeMaybeRef transfer.customPayload
    Codec.coins.store transfer.forwardAmount
    payloadCodec.store transfer.forwardPayload

def codec : Codec JettonTransfer := bodyCodec.tagged tag 32

/-- The cell of a text comment. -/
def comment (text : String) : Except CellError Cell := Builder.build do
  Builder.storeLowBits 0 32
  Builder.storeSnake text.toUTF8.toList

/-! ## Setters -/

section

variable (transfer : JettonTransfer)

def withQueryId (queryId : UInt64) : JettonTransfer := { transfer with queryId }

/-- The confirmation and the rest of the coins go to an address. -/
def withResponseDestination (address : Address) : JettonTransfer :=
  { transfer with responseDestination := some address }

def withForwardAmount (amount : Nat) : JettonTransfer := { transfer with forwardAmount := amount }

def withForwardPayload (payload : Cell) : JettonTransfer :=
  { transfer with forwardPayload := payload }

/-- A transfer that forwards a text comment. -/
def withComment (text : String) : Except CellError JettonTransfer := do
  return transfer.withForwardPayload (← comment text)

end

end JettonTransfer

end BagOfCells
