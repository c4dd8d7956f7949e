/-!
# Bit strings

A bit string is a list of booleans, most significant bit first. Numbers, machine words and bytes
are written as bit strings of a given width and read back; a bit string whose length is no multiple
of eight is packed into bytes with a zeroed tail, or with the completion tag, a single one bit
behind the last bit.

## Main definitions

* `Bits.bound width`: `2 ^ width`, the least number that takes more than `width` bits
* `Bits.ofNat width n`, `Bits.toNat`: unsigned numbers
* `Bits.ofInt width v`, `Bits.toInt`: two's complement numbers
* `Bits.ofWord width v`, `Bits.toWord`: the same on 64-bit machine words
* `Bits.ofBytes`, `Bits.pack`: bytes
* `Bits.complete`: a bit string with its completion tag
* `Bits.size n`: the least width that holds `n`

## Main results

* `Bits.length_ofNat`, `Bits.length_ofBytes`, `Bits.length_pack`: the lengths
* `Bits.size_le_iff`: `n` has at most `width` bits exactly when it lies below the bound
-/

namespace BagOfCells

/-- A bit string, most significant bit first. -/
abbrev Bits := List Bool

namespace Bits

/-! ## Numbers -/

/-- The least number that takes more than `width` bits: a one and `width` zeros. -/
def bound (width : Nat) : Nat := 1 <<< width

/-- The `width` low bits of `n`. -/
def ofNat : (width n : Nat) → Bits
  | 0, _ => []
  | width + 1, n => n.testBit width :: ofNat width n

/-- The number a bit string spells. -/
def toNat (bits : Bits) : Nat :=
  bits.foldl (fun n bit => 2 * n + bit.toNat) 0

/-- The least width that holds `n`; zero for zero. -/
def size (n : Nat) : Nat :=
  if n = 0 then 0 else n.log2 + 1

/-- The least width that holds `v` in two's complement; zero for zero. -/
def signedSize : Int → Nat
  | .ofNat 0 => 0
  | .ofNat n => size n + 1
  | .negSucc n => size n + 1

/-- The two's complement of `v`, cut to `width` bits. -/
def ofInt (width : Nat) (v : Int) : Bits :=
  ofNat width (v % bound width).toNat

/-- The number a bit string spells in two's complement; its first bit is the sign. -/
def toInt (bits : Bits) : Int :=
  if bits.head? = some true then (toNat bits : Int) - bound bits.length else toNat bits

@[simp] theorem length_ofNat (width n : Nat) : (ofNat width n).length = width := by
  induction width with
  | zero => rfl
  | succ width ih => simp [ofNat, ih]

@[simp] theorem length_ofInt (width : Nat) (v : Int) : (ofInt width v).length = width := by
  simp [ofInt]

theorem size_le_iff {n width : Nat} : size n ≤ width ↔ n < bound width := by
  unfold size
  rw [bound, Nat.one_shiftLeft]
  split
  · next h => exact iff_of_true (Nat.zero_le _) (h ▸ Nat.two_pow_pos width)
  · next h => rw [Nat.succ_le_iff, Nat.log2_lt h]

/-! ## Machine words -/

/-- The `width` low bits of a machine word, for widths up to 64. -/
def ofWord : (width : Nat) → (word : UInt64) → Bits
  | 0, _ => []
  | width + 1, word => ((word >>> width.toUInt64) &&& 1 == 1) :: ofWord width word

/-- The machine word a bit string of at most 64 bits spells. -/
def toWord (bits : Bits) : UInt64 :=
  bits.foldl (fun word bit => (word <<< 1) ||| bit.toUInt64) 0

@[simp] theorem length_ofWord (width : Nat) (word : UInt64) :
    (ofWord width word).length = width := by
  induction width with
  | zero => rfl
  | succ width ih => simp [ofWord, ih]

/-! ## Bytes -/

/-- The bits of some bytes, in order. -/
def ofBytes (bytes : List UInt8) : Bits :=
  bytes.flatMap fun byte => ofNat 8 byte.toNat

/-- The byte that eight bits spell. -/
def toByte (bits : Bits) : UInt8 :=
  UInt8.ofNat (toNat bits)

/-- How many zeros a byte ends with; eight for zero. -/
def trailingZeros (byte : UInt8) : Nat :=
  ((ofNat 8 byte.toNat).reverse.takeWhile (!·)).length

/-- A bit string packed into whole bytes, the tail of the last one zero. -/
def pack : Bits → List UInt8
  | b₀ :: b₁ :: b₂ :: b₃ :: b₄ :: b₅ :: b₆ :: b₇ :: rest =>
    toByte [b₀, b₁, b₂, b₃, b₄, b₅, b₆, b₇] :: pack rest
  | [] => []
  | tail => [toByte (tail ++ List.replicate (8 - tail.length) false)]

/-- A bit string filled up to whole bytes: a single one bit behind the last bit, zeros after it;
a bit string of whole bytes stays as it is. -/
def complete (bits : Bits) : Bits :=
  if bits.length % 8 = 0 then bits
  else bits ++ true :: List.replicate (7 - bits.length % 8) false

/-- The first `count` bits of some bytes, filled up to whole bytes; none if there are fewer. -/
def completed? (bytes : List UInt8) (count : Nat) : Option (List UInt8) :=
  if bytes.length < (count + 7) / 8 then none
  else some (pack (complete ((ofBytes bytes).take count)))

@[simp] theorem length_ofBytes (bytes : List UInt8) :
    (ofBytes bytes).length = 8 * bytes.length := by
  induction bytes with
  | nil => rfl
  | cons byte bytes ih =>
    simp only [ofBytes, List.flatMap_cons, List.length_append, length_ofNat, List.length_cons]
    rw [show (bytes.flatMap fun byte => ofNat 8 byte.toNat).length = 8 * bytes.length from ih]
    omega

/-- A bit string takes as many bytes as it begins. -/
@[simp] theorem length_pack (bits : Bits) : (pack bits).length = (bits.length + 7) / 8 := by
  fun_induction pack bits with
  | case1 b₀ b₁ b₂ b₃ b₄ b₅ b₆ b₇ rest ih => simp only [List.length_cons, ih]; omega
  | case2 => rfl
  | case3 tail h₁ h₂ =>
    match tail, h₁, h₂ with
    | [_], _, _ | [_, _], _, _ | [_, _, _], _, _ | [_, _, _, _], _, _ | [_, _, _, _, _], _, _
    | [_, _, _, _, _, _], _, _ | [_, _, _, _, _, _, _], _, _ => simp
    | b₀ :: b₁ :: b₂ :: b₃ :: b₄ :: b₅ :: b₆ :: b₇ :: rest, h₁, _ =>
      exact absurd rfl (h₁ b₀ b₁ b₂ b₃ b₄ b₅ b₆ b₇ rest)

end Bits

end BagOfCells
