import BagOfCells.Proofs.Text.Numeral
import BagOfCells.Text.Hex

/-!
# Hexadecimal text there and back

## Main results

* `Hex.decode?_toList_encode`: the text of some bytes is read as these bytes
* `Hex.digit_of_mem_encode`, `Hex.length_toList_encode`: its characters
-/

namespace BagOfCells.Hex

theorem digit?_digit {n : Nat} (h : n < 16) : Numeral.digit? 16 (digit n) = some n := by
  have hall : ∀ n < 16, Numeral.digit? 16 (digit n) = some n := by decide
  exact hall n h

/-- The two digits of a byte. -/
theorem toList_encode (bytes : List UInt8) : (encode bytes).toList =
    bytes.flatMap fun byte => [digit (byte.toNat / 16), digit (byte.toNat % 16)] :=
  String.toList_ofList ..

/-- **The text** of some bytes is read as these. -/
theorem decode?_toList_encode (bytes : List UInt8) :
    decode? (encode bytes).toList = some bytes := by
  rw [toList_encode]
  induction bytes with
  | nil => rfl
  | cons byte bytes ih =>
    have hbyte := byte.toNat_lt
    have hsum : 16 * (byte.toNat / 16) + byte.toNat % 16 = byte.toNat := Nat.div_add_mod ..
    rw [List.flatMap_cons, List.cons_append, List.cons_append, List.nil_append, decode?,
      digit?_digit (by omega), digit?_digit (by omega), ih]
    change some (UInt8.ofNat (16 * (byte.toNat / 16) + byte.toNat % 16) :: bytes) = _
    rw [hsum, UInt8.ofNat_toNat]

theorem length_toList_encode (bytes : List UInt8) :
    (encode bytes).toList.length = 2 * bytes.length := by
  rw [toList_encode]
  induction bytes with
  | nil => rfl
  | cons byte bytes ih =>
    rw [List.flatMap_cons, List.length_append, ih, List.length_cons]
    simp only [List.length_cons, List.length_nil]
    omega

/-- The text of some bytes consists of digits. -/
theorem digit_of_mem_encode {bytes : List UInt8} {c : Char} (h : c ∈ (encode bytes).toList) :
    ∃ value, Numeral.Digit 16 c value := by
  rw [toList_encode, List.mem_flatMap] at h
  obtain ⟨byte, -, hc⟩ := h
  have hbyte := byte.toNat_lt
  simp only [List.mem_cons, List.not_mem_nil, or_false] at hc
  rcases hc with rfl | rfl
  · exact ⟨_, Numeral.digit?_eq_some_iff.mp (digit?_digit (by omega))⟩
  · exact ⟨_, Numeral.digit?_eq_some_iff.mp (digit?_digit (by omega))⟩

end BagOfCells.Hex
