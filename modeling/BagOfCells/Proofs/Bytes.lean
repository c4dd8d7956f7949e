import BagOfCells.Bits
import BagOfCells.Bytes
import Mathlib.Tactic.Ring

/-!
# The numbers of fixed-width fields

A field reads back as the number that was written when the number fits, and every field is a number
that fits.

## Main results

* `Bytes.toNat_lt`, `Bytes.toNat_inj`: some bytes spell a number that fits them, and no others do
* `Bytes.toNat_ofNat`, `Bytes.toNatReversed_ofNatReversed`: a number that fits reads back
-/

namespace BagOfCells

theorem Bits.bound_eq (width : Nat) : Bits.bound width = 2 ^ width := by
  rw [Bits.bound, Nat.one_shiftLeft]

namespace Bytes

theorem foldl_eq (bytes : Bytes) (n : Nat) :
    bytes.foldl (fun n byte => 256 * n + byte.toNat) n = n * 256 ^ bytes.length + toNat bytes := by
  unfold toNat
  induction bytes generalizing n with
  | nil => simp
  | cons byte bytes ih =>
    -- the number so far moves up by one digit for each byte
    rw [List.foldl_cons, List.foldl_cons, ih, ih (256 * 0 + byte.toNat), List.length_cons]
    ring

theorem toNat_cons (byte : UInt8) (bytes : Bytes) :
    toNat (byte :: bytes) = byte.toNat * 256 ^ bytes.length + toNat bytes := by
  rw [toNat, List.foldl_cons, foldl_eq, Nat.mul_zero, Nat.zero_add]

@[simp] theorem toNat_singleton (byte : UInt8) : toNat [byte] = byte.toNat := by
  simp [toNat]

/-- Some bytes spell a number that fits them. -/
theorem toNat_lt (bytes : Bytes) : toNat bytes < 256 ^ bytes.length := by
  induction bytes with
  | nil => simp [toNat]
  | cons byte bytes ih =>
    have hb : byte.toNat < 256 := byte.toNat_lt
    rw [toNat_cons, List.length_cons, Nat.pow_succ']
    calc byte.toNat * 256 ^ bytes.length + toNat bytes
        < byte.toNat * 256 ^ bytes.length + 256 ^ bytes.length := by omega
      _ = (byte.toNat + 1) * 256 ^ bytes.length := by ring
      _ ≤ 256 * 256 ^ bytes.length := Nat.mul_le_mul_right _ hb

/-- Bytes are told by their number and how many they are. -/
theorem toNat_inj {a b : Bytes} (hl : a.length = b.length) (h : toNat a = toNat b) : a = b := by
  induction a generalizing b with
  | nil => exact (List.length_eq_zero_iff.mp hl.symm).symm
  | cons x a ih =>
    rcases b with _ | ⟨y, b⟩
    · cases hl
    rw [List.length_cons, List.length_cons, Nat.add_right_cancel_iff] at hl
    rw [toNat_cons, toNat_cons, ← hl] at h
    have ha := toNat_lt a
    have hb := toNat_lt b
    rw [← hl] at hb
    -- the first bytes are the quotients by the place of the others
    have hpos : 0 < 256 ^ a.length := Nat.pow_pos (by decide)
    have hfirst : x.toNat = y.toNat := by
      have hq := congrArg (· / 256 ^ a.length) h
      simpa [Nat.mul_comm _ (256 ^ a.length), Nat.mul_add_div hpos, Nat.div_eq_of_lt ha,
        Nat.div_eq_of_lt hb] using hq
    rw [hfirst, Nat.add_left_cancel_iff] at h
    rw [UInt8.toNat_inj.mp hfirst, ih hl h]

theorem toNat_ofNat_mod (size n : Nat) : toNat (ofNat size n) = n % 256 ^ size := by
  induction size with
  | zero => simp [ofNat, toNat, Nat.mod_one]
  | succ size ih =>
    have hs : n >>> (8 * size) = n / 256 ^ size := by
      rw [Nat.shiftRight_eq_div_pow, Nat.pow_mul]
    have hb : (UInt8.ofNat (n >>> (8 * size))).toNat = n / 256 ^ size % 256 := by
      rw [UInt8.toNat_ofNat', hs]
    rw [ofNat, toNat_cons, ih, length_ofNat, hb, Nat.pow_succ, Nat.mod_mul]
    ring

/-- **A number that fits** a field reads back. -/
theorem toNat_ofNat {size n : Nat} (h : n < 256 ^ size) : toNat (ofNat size n) = n := by
  rw [toNat_ofNat_mod, Nat.mod_eq_of_lt h]

theorem ofNat_one (n : Nat) : ofNat 1 n = [UInt8.ofNat n] :=
  rfl

/-- **A field** is written back as it was. -/
theorem ofNat_toNat (bytes : Bytes) : ofNat bytes.length (toNat bytes) = bytes :=
  toNat_inj (length_ofNat ..) (toNat_ofNat (toNat_lt bytes))

/-- Numbers in fields of one size. -/
theorem length_flatten_ofNat (size : Nat) (numbers : List Nat) :
    (numbers.map (ofNat size)).flatten.length = numbers.length * size := by
  induction numbers with
  | nil => simp
  | cons n numbers ih =>
    rw [List.map_cons, List.flatten_cons, List.length_append, ih, length_ofNat, List.length_cons,
      Nat.succ_mul, Nat.add_comm]

theorem toNatReversed_ofNatReversed {size n : Nat} (h : n < 256 ^ size) :
    toNatReversed (ofNatReversed size n) = n := by
  rw [toNatReversed, ofNatReversed, List.reverse_reverse, toNat_ofNat h]

theorem ofNatReversed_toNatReversed (bytes : Bytes) :
    ofNatReversed bytes.length (toNatReversed bytes) = bytes := by
  rw [toNatReversed, ofNatReversed, ← List.length_reverse, ofNat_toNat, List.reverse_reverse]

end Bytes

end BagOfCells
