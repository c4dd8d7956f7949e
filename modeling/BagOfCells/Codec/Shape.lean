import BagOfCells.Codec.Jetton
import BagOfCells.Codec.StateInit

/-!
# Shapes

A shape names a type of values with a codec: a simple type, one of the composite ones, or one put
together from others.

## Main definitions

* `Shape`, `Shape.Value`: shapes and the types they name
* `Shape.codec`: the codec of a shape
* `Shape.beq`: equality of values, cells compared by their hashes
-/

namespace BagOfCells

/-- A type of values with a codec. -/
inductive Shape where
  | bool
  /-- A number of a width of at most 64. -/
  | uint (width : Nat)
  | cell
  | address
  | addressOrNone
  | coins
  /-- Everything that is left of the cell. -/
  | rest
  | tickTock
  | library
  /-- A dictionary with keys of a given width. -/
  | dictionary (width : Nat)
  | stateInit
  | jettonTransfer
  | maybe (inner : Shape)
  /-- A value in a cell of its own. -/
  | inRef (inner : Shape)
  /-- A value inline if it fits, otherwise in a cell of its own. -/
  | either (inner : Shape)
  deriving DecidableEq

namespace Shape

/-- The type a shape names. -/
def Value : Shape → Type
  | bool => Bool
  | uint width => BitVec width
  | cell | rest => Cell
  | address => Address
  | addressOrNone => Option Address
  | coins => Nat
  | tickTock => TickTock
  | library => Library
  | dictionary _ => Dictionary
  | stateInit => StateInit
  | jettonTransfer => JettonTransfer
  | maybe inner => Option inner.Value
  | inRef inner | either inner => inner.Value

/-- The codec of a shape. -/
def codec : (shape : Shape) → Codec shape.Value
  | bool => Codec.bool
  | uint width => Codec.uint width
  | cell => Codec.cell
  | rest => Codec.rest
  | address => Codec.address
  | addressOrNone => Codec.addressOrNone
  | coins => Codec.coins
  | tickTock => TickTock.codec
  | library => Library.codec
  | dictionary width => Codec.dictionary width
  | stateInit => StateInit.codec
  | jettonTransfer => JettonTransfer.codec
  | maybe inner => inner.codec.maybe
  | inRef inner => inner.codec.inRef
  | either inner => inner.codec.either

/-- Whether two values of a shape are equal, cells compared by their hashes. -/
def beq : (shape : Shape) → shape.Value → shape.Value → Bool
  | bool, (a : Bool), b => a == b
  | uint _, (a : BitVec _), b => a == b
  | cell, (a : Cell), b | rest, (a : Cell), b => a == b
  | address, (a : Address), b => a == b
  | addressOrNone, (a : Option Address), b => a == b
  | coins, (a : Nat), b => a == b
  | tickTock, (a : TickTock), b => a == b
  | library, (a : Library), b => a == b
  | dictionary _, (a : Dictionary), b => a == b
  | stateInit, (a : StateInit), b => a == b
  | jettonTransfer, (a : JettonTransfer), b => a == b
  | maybe _, none, none => true
  | maybe inner, some a, some b => inner.beq a b
  | maybe _, _, _ => false
  | inRef inner, a, b | either inner, a, b => inner.beq a b

end Shape

end BagOfCells
