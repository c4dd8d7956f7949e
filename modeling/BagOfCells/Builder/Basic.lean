import BagOfCells.Slice.Basic

/-!
# Builders

A builder holds the bits and references of a cell to be made. A store appends to it or fails. A
builder is never filled beyond what a cell holds: a store first looks whether its bits fit, then
whether its references do.

## Main definitions

* `Builder`, `Builder.empty`, `Builder.availableBits`, `Builder.availableRefs`, `Builder.canFit`
* `Store`: a store, from a builder to an error or success and, either way, to a builder
* `Builder.append bits refs`: the store all others are made of
* `Builder.storeBits`, `Builder.storeBytes`, `Builder.storeRef`, `Builder.storeMaybeRef`
* `Builder.storeCell`, `Builder.storeSlice`, `Builder.storeBuilder`: contents of other values
* `Builder.atomically`: a store that leaves nothing behind when it fails
* `Builder.endCell`, `Builder.endExoticCell`, `Builder.toSlice`, `Builder.build`: the cell made

## Main results

* `Builder.append_eq_ok_iff`: what is appended, and that it is when it fits
-/

namespace BagOfCells

/-- The bits and references of a cell to be made. -/
structure Builder where
  bits : Bits
  refs : List Cell

/-- A store: appends to a builder, or fails. -/
abbrev Store := EStateM CellError Builder Unit

namespace Builder

/-- The builder that holds nothing. -/
def empty : Builder := ⟨[], []⟩

instance : Inhabited Builder := ⟨empty⟩

/-! ## Room -/

/-- How many bits still fit. -/
def availableBits (b : Builder) : Nat := Cell.maxBits - b.bits.length

/-- How many whole bytes still fit. -/
def availableBytes (b : Builder) : Nat := b.availableBits / 8

/-- How many references still fit. -/
def availableRefs (b : Builder) : Nat := Cell.maxRefs - b.refs.length

/-- Whether some bits and references still fit. -/
def canFit (b : Builder) (bits refs : Nat) : Bool :=
  bits ≤ b.availableBits && refs ≤ b.availableRefs

/-- Why some bits and references do not fit any more, if they do not. -/
def refusal? (b : Builder) (bits refs : Nat) : Option CellError :=
  if bits > b.availableBits then some (.bits bits b.availableBits)
  else if refs > b.availableRefs then some (.refs refs b.availableRefs)
  else none

theorem refusal?_eq_none_iff {b : Builder} {bits refs : Nat} :
    b.refusal? bits refs = none ↔ b.canFit bits refs = true := by
  unfold refusal? canFit
  by_cases hb : bits ≤ b.availableBits
  · by_cases hr : refs ≤ b.availableRefs
    · simp [hb, hr, Nat.not_lt.mpr hb, Nat.not_lt.mpr hr]
    · simp [hb, hr, Nat.not_lt.mpr hb, Nat.not_le.mp hr]
  · simp [hb, Nat.not_le.mp hb]

/-- Fails unless some bits and references still fit. -/
def ensureFits (bits refs : Nat) : Store := fun b =>
  match b.refusal? bits refs with
  | some e => .error e b
  | none => .ok () b

/-! ## Stores -/

/-- Appends some bits and references, or refuses all of them. -/
def append (bits : Bits) (refs : List Cell) : Store := fun b =>
  match b.refusal? bits.length refs.length with
  | some e => .error e b
  | none => .ok () ⟨b.bits ++ bits, b.refs ++ refs⟩

/-- **What fits is appended** behind what is stored already. -/
theorem append_eq_ok_iff {bits : Bits} {refs : List Cell} {b b' : Builder} :
    append bits refs b = .ok () b' ↔
      b.canFit bits.length refs.length = true ∧ b' = ⟨b.bits ++ bits, b.refs ++ refs⟩ := by
  rw [← refusal?_eq_none_iff]
  unfold append
  cases b.refusal? bits.length refs.length with
  | none => simp [eq_comm]
  | some e => simp

/-- Runs a store, taking everything back if it fails. -/
def atomically (store : Store) : Store := fun b =>
  match store b with
  | .ok _ b' => .ok () b'
  | .error e _ => .error e b

/-- Stores one bit. -/
def storeBit (bit : Bool) : Store := append [bit] []

/-- Stores the first `bits` bits of some bytes. -/
def storeBits (data : Bytes) (bits : Nat) : Store := do
  ensureFits bits 0
  if data.length < (bits + 7) / 8 then
    throw (.valueOutOfRange (.dataTooShort data.length bits))
  append ((Bits.ofBytes data).take bits) []

/-- Stores some bytes. -/
def storeBytes (data : Bytes) : Store := append (Bits.ofBytes data) []

/-- Stores a text that fits. -/
def storeString (text : String) : Store := storeBytes text.toUTF8.toList

/-- Stores zeros. -/
def storeZeroes (count : Nat) : Store := do
  ensureFits count 0
  append (List.replicate count false) []

/-- Stores a reference. -/
def storeRef (cell : Cell) : Store := append [] [cell]

/-- Stores a presence bit, and the reference if there is one. -/
def storeMaybeRef : Option Cell → Store
  | some cell => append [true] [cell]
  | none => append [false] []

/-- Stores the contents of an ordinary cell. -/
def storeCell (cell : Cell) : Store :=
  if cell.isExotic then throw (.unsupportedKind cell.kind) else append cell.bits cell.refs

/-- Stores what is left of a slice. -/
def storeSlice (s : Slice) : Store := append s.bits s.refs

/-- Stores what another builder holds. -/
def storeBuilder (other : Builder) : Store := append other.bits other.refs

/-! ## Cells -/

/-- The ordinary cell of what is stored. -/
def endCell (b : Builder) : Except CellError Cell := Cell.make .ordinary b.bits b.refs

/-- The cell of the given kind of what is stored. -/
def endExoticCell (b : Builder) (kind : CellKind) : Except CellError Cell :=
  Cell.make kind b.bits b.refs

/-- A slice over the ordinary cell of what is stored. -/
def toSlice (b : Builder) : Except CellError Slice :=
  (b.endCell).map Slice.ofCell

/-- The builder a store leaves, if it succeeds. -/
def run (store : Store) (b : Builder) : Except CellError Builder :=
  match store b with
  | .ok _ b => .ok b
  | .error e _ => .error e

/-- The ordinary cell of what one store puts into an empty builder. -/
def build (store : Store) : Except CellError Cell := do
  (← run store empty).endCell

end Builder

end BagOfCells
