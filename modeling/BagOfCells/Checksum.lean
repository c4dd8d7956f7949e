/-!
# Checksums

Two cyclic redundancy checks over bytes. `Crc16` guards the text of an address: the polynomial
`x^16 + x^12 + x^5 + 1`, most significant bit first, starting from zero. `Crc32c` closes a bag: the
Castagnoli polynomial, least significant bit first, starting from all ones and complemented at the
end. Both run as a state that eats one byte at a time, so a checksum over pieces is the checksum
over their concatenation.

## Main definitions

* `Crc16.update`, `Crc16.checksum`
* `Crc32c.update`, `Crc32c.finish`, `Crc32c.checksum`

## Main results

* `Crc16.update_append`, `Crc32c.update_append`: pieces may be fed one after the other
-/

namespace BagOfCells

/-- A function applied `n` times. -/
def times {α : Type} (f : α → α) : Nat → α → α
  | 0, a => a
  | n + 1, a => times f n (f a)

namespace Crc16

/-- The state moved on by one bit. -/
def shift (state : UInt16) : UInt16 :=
  if state &&& 0x8000 = 0 then state <<< 1 else (state <<< 1) ^^^ 0x1021

/-- The state moved on by one byte. -/
def step (state : UInt16) (byte : UInt8) : UInt16 :=
  times shift 8 (state ^^^ (byte.toUInt16 <<< 8))

/-- The state moved on by some bytes. -/
def update (state : UInt16) (bytes : List UInt8) : UInt16 :=
  bytes.foldl step state

def init : UInt16 := 0

def checksum (bytes : List UInt8) : UInt16 :=
  update init bytes

theorem update_append (state : UInt16) (a b : List UInt8) :
    update state (a ++ b) = update (update state a) b :=
  List.foldl_append

end Crc16

namespace Crc32c

/-- The state moved on by one bit. -/
def shift (state : UInt32) : UInt32 :=
  if state &&& 1 = 0 then state >>> 1 else (state >>> 1) ^^^ 0x82f63b78

/-- The state moved on by one byte. -/
def step (state : UInt32) (byte : UInt8) : UInt32 :=
  times shift 8 (state ^^^ byte.toUInt32)

/-- The state moved on by some bytes. -/
def update (state : UInt32) (bytes : List UInt8) : UInt32 :=
  bytes.foldl step state

def init : UInt32 := 0xffffffff

/-- The checksum a state stands for. -/
def finish (state : UInt32) : UInt32 :=
  state ^^^ 0xffffffff

def checksum (bytes : List UInt8) : UInt32 :=
  finish (update init bytes)

theorem update_append (state : UInt32) (a b : List UInt8) :
    update state (a ++ b) = update (update state a) b :=
  List.foldl_append

end Crc32c

end BagOfCells
