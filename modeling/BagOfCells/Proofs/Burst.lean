import BagOfCells.Proofs.Builder.Packing
import BagOfCells.Proofs.Checksum
import Mathlib.Data.Nat.Bitwise

/-!
# Bursts of bits

The checksum of an address eats bits one by one, most significant first: a bit is added to the high
end of the state, and the state is shifted. Its shift is linear and loses nothing, like that of the
checksum of a bag. Up to sixteen bits lie side by side in a state and move it on at once, so the
state tells any two strings apart that differ within sixteen neighbouring bits, whether or not these
begin with a byte. A byte string behind which its own checksum stands brings the state back to zero.

## Main definitions

* `Crc16.feed`: the state moved on by one bit
* `Crc16.word`: some bits at the high end of a state

## Main results

* `Crc16.shift_xor`, `Crc16.shift_injective`: one shift
* `Crc16.foldl_feed_eq`: up to sixteen bits at once
* `Crc16.update_eq`: bytes are fed bit by bit
* `Crc16.residue`: a byte string and its checksum
* `Crc16.eq_of_burst`: two strings of one residue do not differ in one place alone
-/

namespace BagOfCells.Crc16

/-! ## One shift -/

theorem and_high_eq_zero_iff (x : UInt16) : x &&& 0x8000 = 0 ↔ x.toNat.testBit 15 = false := by
  rw [← UInt16.toNat_inj, UInt16.toNat_and, UInt16.toNat_zero]
  change x.toNat &&& 2 ^ 15 = 0 ↔ _
  rw [Nat.and_two_pow]
  cases x.toNat.testBit 15 <;> simp

theorem shift_eq (x : UInt16) :
    shift x = (x <<< 1) ^^^ if x.toNat.testBit 15 then 0x1021 else 0 := by
  unfold shift
  simp only [and_high_eq_zero_iff]
  cases x.toNat.testBit 15
  · exact UInt16.xor_zero.symm
  · rfl

/-- **The shift is linear**: the polynomial is added for each high bit, so twice is not at all. -/
theorem shift_xor (x y : UInt16) : shift (x ^^^ y) = shift x ^^^ shift y := by
  have hpoly (a b : Bool) (p : UInt16) : (if a != b then p else 0) =
      (if a then p else 0) ^^^ (if b then p else 0) := by
    cases a <;> cases b <;> simp
  simp only [shift_eq, UInt16.toNat_xor, Nat.testBit_xor, UInt16.shiftLeft_xor, hpoly]
  ac_rfl

theorem testBit_high (x : UInt16) : x.toNat.testBit 15 = decide (2 ^ 15 ≤ x.toNat) := by
  have hx := x.toNat_lt
  rw [Nat.testBit_eq_decide_div_mod_eq, decide_eq_decide]
  omega

theorem toNat_shiftLeft_one (x : UInt16) : (x <<< 1).toNat = 2 * x.toNat % 2 ^ 16 := by
  rw [UInt16.toNat_shiftLeft, Nat.shiftLeft_eq]
  change x.toNat * 2 % _ = _
  rw [Nat.mul_comm]

/-- The polynomial has the lowest bit, which the shift leaves free. -/
theorem eq_zero_of_shift {x : UInt16} (h : shift x = 0) : x = 0 := by
  have hx := x.toNat_lt
  rw [shift_eq, UInt16.xor_eq_zero_iff, ← UInt16.toNat_inj, toNat_shiftLeft_one, testBit_high] at h
  rw [← UInt16.toNat_inj, UInt16.toNat_zero]
  split at h
  · change _ = 0x1021 at h
    omega
  · next hlow =>
    rw [decide_eq_true_eq] at hlow
    change _ = 0 at h
    omega

theorem shift_injective {x y : UInt16} (h : shift x = shift y) : x = y := by
  rw [← UInt16.xor_eq_zero_iff] at h ⊢
  rw [← shift_xor] at h
  exact eq_zero_of_shift h

/-- A state whose high bit is free is doubled. -/
theorem shift_ofNat {n : Nat} (h : n < 2 ^ 15) : shift (UInt16.ofNat n) = UInt16.ofNat (2 * n) := by
  have hn : (UInt16.ofNat n).toNat = n := UInt16.toNat_ofNat_of_lt' (h.trans (by decide))
  rw [shift_eq, testBit_high, hn, decide_eq_false (by omega), if_neg Bool.false_ne_true,
    UInt16.xor_zero, ← UInt16.toNat_inj, toNat_shiftLeft_one, hn, UInt16.toNat_ofNat']

/-! ## Bits -/

/-- The state moved on by one bit. -/
def feed (state : UInt16) (bit : Bool) : UInt16 :=
  shift (state ^^^ if bit then 0x8000 else 0)

/-- Up to sixteen bits at the high end of a state. -/
def word (bits : Bits) : UInt16 := UInt16.ofNat (bits.toNat * 2 ^ (16 - bits.length))

/-- Bits moved up to the high end of a wider number leave its width alone. -/
theorem toNat_mul_lt {bits : Bits} {k : Nat} (h : bits.length ≤ k) :
    bits.toNat * 2 ^ (k - bits.length) < 2 ^ k :=
  calc bits.toNat * 2 ^ (k - bits.length)
    _ < 2 ^ bits.length * 2 ^ (k - bits.length) :=
        Nat.mul_lt_mul_of_pos_right bits.toNat_lt (Nat.two_pow_pos _)
    _ = 2 ^ k := by rw [← Nat.pow_add, Nat.add_sub_cancel' h]

/-- The first bit is at the high end, and the others are shifted up behind it. -/
theorem word_cons {bit : Bool} {bits : Bits} (h : bits.length < 16) :
    shift (word (bit :: bits)) = shift (if bit then 0x8000 else 0) ^^^ word bits := by
  have hlow : bits.length ≤ 15 := Nat.le_of_lt_succ h
  have hpow : 2 ^ bits.length * 2 ^ (15 - bits.length) = 2 ^ 15 := by
    rw [← Nat.pow_add, Nat.add_sub_cancel' hlow]
  have hrest := toNat_mul_lt hlow
  have hup : word bits = shift (UInt16.ofNat (bits.toNat * 2 ^ (15 - bits.length))) := by
    rw [shift_ofNat hrest, word, show 16 - bits.length = 15 - bits.length + 1 by omega,
      Nat.pow_succ]
    congr 1
    ac_rfl
  have hword : word (bit :: bits) = (if bit then 0x8000 else 0) ^^^
      UInt16.ofNat (bits.toNat * 2 ^ (15 - bits.length)) := by
    rw [word, Bits.toNat_cons, List.length_cons, Nat.succ_sub_succ, Nat.add_mul, Nat.mul_assoc,
      hpow]
    cases bit with
    | false => simp
    | true =>
      -- the high bit is free in what stands behind it
      have hsum := mul_two_pow_xor 1 hrest
      rw [Nat.one_mul] at hsum
      rw [Bool.toNat_true, Nat.one_mul, if_pos rfl, ← hsum, UInt16.ofNat_xor]
      rfl
  rw [hword, shift_xor, hup]

/-- **Up to sixteen bits** move a state on at once. -/
theorem foldl_feed_eq (state : UInt16) {bits : Bits} (h : bits.length ≤ 16) :
    bits.foldl feed state = times shift bits.length (state ^^^ word bits) := by
  induction bits generalizing state with
  | nil => exact UInt16.xor_zero.symm
  | cons bit bits ih =>
    rw [List.length_cons] at h ⊢
    rw [List.foldl_cons, ih _ (Nat.le_of_succ_le h), times, feed, shift_xor, shift_xor,
      word_cons h, UInt16.xor_assoc]

/-- The state that some bits leave behind is known from that behind more bits. -/
theorem foldl_feed_injective {bits : Bits} {x y : UInt16}
    (h : bits.foldl feed x = bits.foldl feed y) : x = y := by
  induction bits generalizing x y with
  | nil => exact h
  | cons bit bits ih => exact (UInt16.xor_left_inj _).mp (shift_injective (ih h))

/-- **Sixteen bits** are known from the state they leave. -/
theorem eq_of_foldl_feed_eq {state : UInt16} {a b : Bits} (hl : a.length = b.length)
    (h₁₆ : a.length ≤ 16) (h : a.foldl feed state = b.foldl feed state) : a = b := by
  rw [foldl_feed_eq state h₁₆, foldl_feed_eq state (hl ▸ h₁₆), ← hl] at h
  have hword : word a = word b := (UInt16.xor_right_inj _).mp (times_injective shift_injective h)
  rw [word, word, ← UInt16.toNat_inj, UInt16.toNat_ofNat_of_lt' (toNat_mul_lt h₁₆),
    UInt16.toNat_ofNat_of_lt' (toNat_mul_lt (hl ▸ h₁₆)), ← hl] at hword
  exact Bits.toNat_inj hl (Nat.mul_right_cancel (Nat.two_pow_pos _) hword)

/-- **Two strings** of one residue do not differ in sixteen neighbouring bits alone. -/
theorem eq_of_burst {state : UInt16} {front a b rear : Bits} (hl : a.length = b.length)
    (h₁₆ : a.length ≤ 16)
    (h : (front ++ a ++ rear).foldl feed state = (front ++ b ++ rear).foldl feed state) :
    a = b := by
  rw [List.foldl_append, List.foldl_append, List.foldl_append, List.foldl_append] at h
  exact eq_of_foldl_feed_eq hl h₁₆ (foldl_feed_injective h)

/-! ## Bytes -/

theorem step_eq (state : UInt16) (byte : UInt8) :
    step state byte = (Bits.ofNat 8 byte.toNat).foldl feed state := by
  have hlen : (Bits.ofNat 8 byte.toNat).length = 8 := Bits.length_ofNat ..
  have hword : word (Bits.ofNat 8 byte.toNat) = byte.toUInt16 <<< 8 := by
    have hbyte := byte.toNat_lt
    have hshift : (byte.toUInt16 <<< 8).toNat = byte.toNat <<< 8 % 2 ^ 16 := by
      rw [UInt16.toNat_shiftLeft, UInt8.toNat_toUInt16]
      rfl
    rw [word, hlen, Bits.toNat_ofNat hbyte, ← UInt16.toNat_inj, hshift, UInt16.toNat_ofNat',
      Nat.shiftLeft_eq]
  rw [foldl_feed_eq state (by rw [hlen]; decide), hlen, hword]
  rfl

/-- **Bytes** are fed bit by bit. -/
theorem update_eq (state : UInt16) (bytes : Bytes) :
    update state bytes = (Bits.ofBytes bytes).foldl feed state := by
  induction bytes generalizing state with
  | nil => rfl
  | cons byte bytes ih =>
    rw [Bits.ofBytes_cons, List.foldl_append, ← step_eq, ← ih]
    rfl

/-- **A byte string and its checksum** bring the state back to zero. -/
theorem residue (body : Bytes) :
    update init (body ++ Bytes.ofNat 2 (checksum body).toNat) = 0 := by
  have hlt := (checksum body).toNat_lt
  have hlen : (Bits.ofNat (8 * 2) (checksum body).toNat).length = 16 := Bits.length_ofNat ..
  have hword : word (Bits.ofNat (8 * 2) (checksum body).toNat) = update init body := by
    rw [word, hlen, Bits.toNat_ofNat hlt, Nat.sub_self, Nat.pow_zero, Nat.mul_one,
      UInt16.ofNat_toNat, checksum]
  rw [update_append, update_eq _ (Bytes.ofNat ..), Bits.ofBytes_ofNat, foldl_feed_eq _ hlen.le,
    hlen, hword, UInt16.xor_self]
  exact times_of_eq rfl 16

end BagOfCells.Crc16
