import BagOfCells.Bits
import Mathlib.Data.List.TakeWhile

/-!
# Bits in whole bytes

A bit string comes back out of the bytes it was packed into, from the front of them when they were
filled up to whole bytes. The completion tag is found again as the last one bit of the last byte.

## Main definitions

* `Bits.Tagged`: some bytes hold a bit string and the tag

## Main results

* `Bits.take_ofBytes_pack`, `Bits.take_ofBytes_complete`: a bit string comes back
* `Bits.pack_ofBytes`: whole bytes come back
* `Bits.getLast?_complete`, `Bits.tagged_iff`: the last byte of a tagged bit string shows where the
  tag is
-/

namespace BagOfCells.Bits

theorem ofNat_toByte (b₀ b₁ b₂ b₃ b₄ b₅ b₆ b₇ : Bool) :
    ofNat 8 (toByte [b₀, b₁, b₂, b₃, b₄, b₅, b₆, b₇]).toNat = [b₀, b₁, b₂, b₃, b₄, b₅, b₆, b₇] := by
  revert b₀ b₁ b₂ b₃ b₄ b₅ b₆ b₇
  decide

theorem ofBytes_cons (byte : UInt8) (bytes : List UInt8) :
    ofBytes (byte :: bytes) = ofNat 8 byte.toNat ++ ofBytes bytes :=
  List.flatMap_cons

theorem ofBytes_append (a b : List UInt8) : ofBytes (a ++ b) = ofBytes a ++ ofBytes b :=
  List.flatMap_append

/-- The bytes of a bit string spell it, with zeros behind it. -/
theorem ofBytes_pack (bits : Bits) :
    ofBytes (pack bits) = bits ++ List.replicate ((8 - bits.length % 8) % 8) false := by
  fun_induction pack bits with
  | case1 b₀ b₁ b₂ b₃ b₄ b₅ b₆ b₇ rest ih =>
    rw [ofBytes_cons, ofNat_toByte, ih]
    simp only [List.length_cons, List.cons_append, List.nil_append, Nat.add_assoc,
      Nat.reduceAdd, Nat.add_mod_right]
  | case2 => rfl
  | case3 tail h₁ h₂ =>
    -- the tail has one to seven bits
    rcases tail with _ | ⟨b₀, _ | ⟨b₁, _ | ⟨b₂, _ | ⟨b₃, _ | ⟨b₄, _ | ⟨b₅, _ | ⟨b₆, _ |
      ⟨b₇, rest⟩⟩⟩⟩⟩⟩⟩⟩
    · exact absurd rfl h₂
    rotate_left 7
    · exact absurd rfl (h₁ b₀ b₁ b₂ b₃ b₄ b₅ b₆ b₇ rest)
    all_goals
      rw [ofBytes_cons]
      exact (congrArg (· ++ ofBytes []) (ofNat_toByte ..)).trans (List.append_nil _)

/-- **A bit string comes back** out of its bytes. -/
theorem take_ofBytes_pack (bits : Bits) : (ofBytes (pack bits)).take bits.length = bits := by
  rw [ofBytes_pack, List.take_left]

theorem toByte_ofNat (byte : UInt8) : toByte (ofNat 8 byte.toNat) = byte := by
  -- a byte is one of 256 numbers
  obtain ⟨⟨n⟩⟩ := byte
  revert n
  decide +kernel

/-- **Whole bytes come back** out of their bits. -/
theorem pack_ofBytes (bytes : List UInt8) : pack (ofBytes bytes) = bytes := by
  induction bytes with
  | nil => rfl
  | cons byte bytes ih =>
    rw [ofBytes_cons]
    -- eight bits in front are the first byte
    calc pack (ofNat 8 byte.toNat ++ ofBytes bytes)
        = toByte (ofNat 8 byte.toNat) :: pack (ofBytes bytes) := rfl
      _ = byte :: bytes := by rw [toByte_ofNat, ih]

theorem length_complete (bits : Bits) : (complete bits).length = 8 * ((bits.length + 7) / 8) := by
  unfold complete
  split
  · omega
  · simp only [List.length_append, List.length_cons, List.length_replicate]
    omega

theorem length_pack_complete (bits : Bits) :
    (pack (complete bits)).length = (bits.length + 7) / 8 := by
  rw [length_pack, length_complete]
  omega

/-- The bytes of a tagged bit string spell just that. -/
theorem ofBytes_pack_complete (bits : Bits) : ofBytes (pack (complete bits)) = complete bits := by
  rw [ofBytes_pack, length_complete, Nat.mul_mod_right]
  exact List.append_nil _

theorem complete_of_mod {bits : Bits} (h : bits.length % 8 = 0) : complete bits = bits :=
  if_pos h

theorem complete_of_not {bits : Bits} (h : bits.length % 8 ≠ 0) :
    complete bits = bits ++ true :: List.replicate (7 - bits.length % 8) false :=
  if_neg h

/-- **A bit string comes back** out of its bytes with the tag. -/
theorem take_ofBytes_complete (bits : Bits) :
    (ofBytes (pack (complete bits))).take bits.length = bits := by
  rw [ofBytes_pack_complete]
  by_cases h : bits.length % 8 = 0
  · rw [complete_of_mod h, List.take_length]
  · rw [complete_of_not h, List.take_left]

theorem head?_pack_append {bits : Bits} (h : 8 ≤ bits.length) (tail : Bits) :
    (pack (bits ++ tail)).head? = (pack bits).head? := by
  match bits, h with
  | _ :: _ :: _ :: _ :: _ :: _ :: _ :: _ :: _, _ =>
    simp only [List.cons_append, pack, List.head?_cons]

/-- The tag leaves the first byte as it is. -/
theorem head?_pack_complete {bits : Bits} (h : 8 ≤ bits.length) :
    (pack (complete bits)).head? = (pack bits).head? := by
  by_cases hm : bits.length % 8 = 0
  · rw [complete_of_mod hm]
  · rw [complete_of_not hm, head?_pack_append h]

theorem trailingZeros_eq {byte : UInt8} {front : Bits} {n : Nat}
    (h : ofNat 8 byte.toNat = front ++ true :: List.replicate n false) :
    trailingZeros byte = n := by
  simp only [trailingZeros, h, List.reverse_append, List.reverse_cons, List.reverse_replicate,
    List.append_assoc, List.singleton_append]
  rw [List.takeWhile_append_of_pos (by simp)]
  simp

@[simp] theorem trailingZeros_zero : trailingZeros 0 = 8 := by
  decide

/-- Only the zero byte has no one bit. -/
theorem trailingZeros_lt {byte : UInt8} (h : byte ≠ 0) : trailingZeros byte < 8 := by
  -- a byte is one of 256 numbers
  obtain ⟨⟨n⟩⟩ := byte
  revert h
  revert n
  decide +kernel

/-- **The last byte** of a tagged bit string ends with the tag and the zeros behind it. -/
theorem getLast?_complete {bits : Bits} (h : bits.length % 8 ≠ 0) :
    ∃ last, (pack (complete bits)).getLast? = some last ∧
      trailingZeros last = 7 - bits.length % 8 := by
  have hl := length_pack_complete bits
  obtain ⟨front, last, hp⟩ : ∃ front last, pack (complete bits) = front ++ [last] := by
    rcases List.eq_nil_or_concat (pack (complete bits)) with hn | hp
    · rw [hn, List.length_nil] at hl
      omega
    · simpa only [List.concat_eq_append] using hp
  have hf : 8 * front.length ≤ bits.length := by
    rw [hp, List.length_append, List.length_singleton] at hl
    omega
  -- cut off the bytes in front, the tagged bit string ends with the last byte
  have ho := ofBytes_pack_complete bits
  rw [hp, ofBytes_append, complete_of_not h] at ho
  have hlast : ofNat 8 last.toNat =
      bits.drop (8 * front.length) ++ true :: List.replicate (7 - bits.length % 8) false := by
    rw [← List.drop_append_of_le_length hf, ← ho, ← length_ofBytes, List.drop_left]
    exact (List.append_nil _).symm
  exact ⟨last, by rw [hp, List.getLast?_concat], trailingZeros_eq hlast⟩

/-- A byte other than zero ends with a one bit and zeros. -/
theorem ofNat_trailingZeros {byte : UInt8} (h : byte ≠ 0) :
    ofNat 8 byte.toNat = (ofNat 8 byte.toNat).take (7 - trailingZeros byte) ++
      true :: List.replicate (trailingZeros byte) false := by
  -- a byte is one of 256 numbers
  obtain ⟨⟨n⟩⟩ := byte
  revert h
  revert n
  decide +kernel

/-- Behind the first bits of some bytes stand a one bit and less than a byte of zeros. -/
def Tagged (bytes : List UInt8) (bits : Nat) : Prop :=
  ∃ zeros < 8, ofBytes bytes = (ofBytes bytes).take bits ++ true :: List.replicate zeros false

theorem Tagged.length_bounds {bytes : List UInt8} {bits : Nat} (h : Tagged bytes bits) :
    bits < 8 * bytes.length ∧ 8 * bytes.length ≤ bits + 8 := by
  obtain ⟨zeros, hz, h⟩ := h
  have hl := congrArg List.length h
  simp only [length_ofBytes, List.length_append, List.length_take, List.length_cons,
    List.length_replicate] at hl
  omega

theorem tagged_pack_complete {bits : Bits} (h : bits.length % 8 ≠ 0) :
    Tagged (pack (complete bits)) bits.length := by
  refine ⟨7 - bits.length % 8, by omega, ?_⟩
  rw [take_ofBytes_complete, ofBytes_pack_complete, complete_of_not h]

/-- **The tag** is the last one bit of the last byte. -/
theorem tagged_iff {front : List UInt8} {last : UInt8} {bits : Nat} :
    Tagged (front ++ [last]) bits ↔
      last ≠ 0 ∧ bits + (trailingZeros last + 1) = 8 * (front ++ [last]).length := by
  have hsplit : ofBytes (front ++ [last]) = ofBytes front ++ ofNat 8 last.toNat := by
    rw [ofBytes_append]
    exact congrArg _ (List.append_nil _)
  have hlen : (front ++ [last]).length = front.length + 1 := by simp
  constructor
  · intro h
    have hbounds := h.length_bounds
    obtain ⟨zeros, hz, h⟩ := h
    have hl := congrArg List.length h
    simp only [length_ofBytes, List.length_append, List.length_take, List.length_cons,
      List.length_replicate, List.length_nil] at hl
    -- what the last byte spells ends with the tag
    have hlast : ofNat 8 last.toNat =
        ((ofBytes (front ++ [last])).take bits).drop (ofBytes front).length ++
          true :: List.replicate zeros false := by
      rw [← List.drop_append_of_le_length, ← h, hsplit, List.drop_left]
      simp only [length_ofBytes, List.length_take, hlen]
      omega
    have htz := trailingZeros_eq hlast
    refine ⟨?_, by omega⟩
    rintro rfl
    rw [trailingZeros_zero] at htz
    omega
  · rintro ⟨hne, hbits⟩
    have hz := trailingZeros_lt hne
    have hfront : bits = (ofBytes front).length + (7 - trailingZeros last) := by
      rw [length_ofBytes]
      omega
    refine ⟨_, hz, ?_⟩
    rw [hsplit, hfront, List.take_length_add_append, List.append_assoc, ← ofNat_trailingZeros hne]

end BagOfCells.Bits
