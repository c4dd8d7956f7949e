import BagOfCells.Checksum
import BagOfCells.Proofs.Bytes

/-!
# What a checksum tells apart

The shift behind the Castagnoli checksum is linear in exclusive or and loses nothing, so a state is
known from the one it moves on to. As far as a state reaches, the bytes that are eaten lie side by
side in it: four bytes move it on by 32 places at once. So the state behind a byte string
tells any two strings apart that differ in at most four neighbouring bytes. A byte string that is
followed by its own checksum moves every state on to one and the same residue, and of two sealed
strings of this form neither is the other one damaged in a single place.

## Main definitions

* `Crc32c.word`: the number of some bytes, least significant byte first, as a state
* `Crc32c.Sealed`: a byte string that ends with the checksum of what stands in front

## Main results

* `Crc32c.shift_xor`, `Crc32c.shift_injective`: one bit
* `Crc32c.update_eq`: up to four bytes at once
* `Crc32c.Sealed.update_eq`: the residue
* `Crc32c.Sealed.eq_of_burst`: two sealed strings do not differ in one place alone
-/

namespace BagOfCells

theorem Bytes.toNatReversed_cons (byte : UInt8) (bytes : Bytes) :
    toNatReversed (byte :: bytes) = 256 * toNatReversed bytes + byte.toNat := by
  rw [toNatReversed, List.reverse_cons, toNat, List.foldl_append]
  rfl

theorem Bytes.toNatReversed_lt (bytes : Bytes) : toNatReversed bytes < 256 ^ bytes.length := by
  have h := toNat_lt bytes.reverse
  rwa [List.length_reverse] at h

theorem Bytes.toNatReversed_inj {a b : Bytes} (hl : a.length = b.length)
    (h : toNatReversed a = toNatReversed b) : a = b := by
  have hr : a.reverse = b.reverse :=
    toNat_inj (by rw [List.length_reverse, List.length_reverse, hl]) h
  exact List.reverse_inj.mp hr

/-- Bits that do not overlap are added. -/
theorem mul_two_pow_xor (a : Nat) {b k : Nat} (h : b < 2 ^ k) :
    a * 2 ^ k ^^^ b = a * 2 ^ k + b := by
  refine Nat.eq_of_testBit_eq fun i => ?_
  rw [Nat.testBit_xor, Nat.mul_comm, Nat.testBit_two_pow_mul_add a h, Nat.testBit_two_pow_mul]
  split
  · next hi => simp [Nat.not_le.mpr hi]
  · next hi =>
    have hhigh : b.testBit i = false :=
      Nat.testBit_lt_two_pow (h.trans_le (Nat.pow_le_pow_right (by decide) (Nat.not_lt.mp hi)))
    simp [hhigh, Nat.not_lt.mp hi]

section Times

variable {α : Type} {f : α → α}

theorem times_add (f : α → α) (m n : Nat) (a : α) :
    times f (m + n) a = times f n (times f m a) := by
  induction m generalizing a with
  | zero => rw [Nat.zero_add, times]
  | succ m ih => rw [Nat.succ_add, times, times, ih]

theorem times_of_eq {a : α} (h : f a = a) (n : Nat) : times f n a = a := by
  induction n with
  | zero => rfl
  | succ n ih => rw [times, h, ih]

theorem times_map₂ {op : α → α → α} (hf : ∀ a b, f (op a b) = op (f a) (f b)) (n : Nat) (a b : α) :
    times f n (op a b) = op (times f n a) (times f n b) := by
  induction n generalizing a b with
  | zero => rfl
  | succ n ih => rw [times, times, times, hf, ih]

theorem times_injective (hf : ∀ {a b}, f a = f b → a = b) {n : Nat} {a b : α}
    (h : times f n a = times f n b) : a = b := by
  induction n generalizing a b with
  | zero => exact h
  | succ n ih => exact hf (ih h)

end Times

namespace Crc32c

/-! ## One bit -/

theorem and_one_eq_zero_iff (x : UInt32) : x &&& 1 = 0 ↔ x.toNat.testBit 0 = false := by
  rw [← UInt32.toNat_inj, UInt32.toNat_and, UInt32.toNat_one, Nat.and_one_is_mod,
    Nat.testBit_zero, decide_eq_false_iff_not, UInt32.toNat_zero]
  omega

theorem shift_eq (x : UInt32) :
    shift x = (x >>> 1) ^^^ if x.toNat.testBit 0 then 0x82f63b78 else 0 := by
  unfold shift
  simp only [and_one_eq_zero_iff]
  cases x.toNat.testBit 0
  · exact UInt32.xor_zero.symm
  · rfl

/-- **The shift is linear**: the polynomial is added for each odd state, so twice is not at all. -/
theorem shift_xor (x y : UInt32) : shift (x ^^^ y) = shift x ^^^ shift y := by
  have hpoly (a b : Bool) (p : UInt32) : (if a != b then p else 0) =
      (if a then p else 0) ^^^ (if b then p else 0) := by
    cases a <;> cases b <;> simp
  simp only [shift_eq, UInt32.toNat_xor, Nat.testBit_xor, UInt32.shiftRight_xor, hpoly]
  ac_rfl

/-- The polynomial has the highest bit, which the shift leaves free. -/
theorem eq_zero_of_shift {x : UInt32} (h : shift x = 0) : x = 0 := by
  rw [shift_eq] at h
  have hx := x.toNat_lt
  have hhalf : (x >>> 1).toNat = x.toNat / 2 := UInt32.toNat_shiftRight x 1
  cases hb : x.toNat.testBit 0 with
  | false =>
    rw [hb, if_neg Bool.false_ne_true, UInt32.xor_zero, ← UInt32.toNat_inj, hhalf,
      UInt32.toNat_zero] at h
    rw [Nat.testBit_zero, decide_eq_false_iff_not] at hb
    rw [← UInt32.toNat_inj, UInt32.toNat_zero]
    omega
  | true =>
    rw [hb, if_pos rfl, UInt32.xor_eq_zero_iff, ← UInt32.toNat_inj, hhalf] at h
    change _ = 0x82f63b78 at h
    omega

theorem shift_injective {x y : UInt32} (h : shift x = shift y) : x = y := by
  rw [← UInt32.xor_eq_zero_iff] at h ⊢
  rw [← shift_xor] at h
  exact eq_zero_of_shift h

/-- An even state is halved. -/
theorem shift_double {n : Nat} (h : 2 * n < 2 ^ 32) :
    shift (UInt32.ofNat (2 * n)) = UInt32.ofNat n := by
  have heven : (UInt32.ofNat (2 * n)).toNat = 2 * n := UInt32.toNat_ofNat_of_lt' h
  have hhalf : (UInt32.ofNat (2 * n) >>> 1).toNat = 2 * n / 2 :=
    (UInt32.toNat_shiftRight _ 1).trans (by rw [heven]; rfl)
  have hbit : (2 * n).testBit 0 = false := by
    rw [Nat.testBit_zero, decide_eq_false_iff_not]
    omega
  rw [shift_eq, heven, hbit, if_neg Bool.false_ne_true, UInt32.xor_zero, ← UInt32.toNat_inj, hhalf,
    UInt32.toNat_ofNat_of_lt' (show n < 2 ^ 32 by omega)]
  omega

/-! ## Several bits -/

theorem times_shift_xor (n : Nat) (x y : UInt32) :
    times shift n (x ^^^ y) = times shift n x ^^^ times shift n y :=
  times_map₂ shift_xor n x y

theorem times_shift_injective {n : Nat} {x y : UInt32} (h : times shift n x = times shift n y) :
    x = y :=
  times_injective shift_injective h

/-- As long as a state is even it only moves down. -/
theorem times_shift_mul {k n : Nat} (h : n * 2 ^ k < 2 ^ 32) :
    times shift k (UInt32.ofNat (n * 2 ^ k)) = UInt32.ofNat n := by
  induction k with
  | zero => rw [Nat.pow_zero, Nat.mul_one, times]
  | succ k ih =>
    have hdouble : n * 2 ^ (k + 1) = 2 * (n * 2 ^ k) := by
      rw [Nat.pow_succ, Nat.mul_comm _ 2, Nat.mul_left_comm]
    rw [hdouble] at h ⊢
    rw [times, shift_double h, ih (by omega)]

/-! ## Some bytes -/

/-- The number of some bytes, least significant byte first, as a state. -/
def word (bytes : Bytes) : UInt32 := UInt32.ofNat (Bytes.toNatReversed bytes)

/-- Up to four bytes lie side by side in a state. -/
theorem word_cons {byte : UInt8} {bytes : Bytes} (h : bytes.length < 4) :
    word (byte :: bytes) =
      byte.toUInt32 ^^^ UInt32.ofNat (Bytes.toNatReversed bytes * 2 ^ 8) := by
  have hn := Bytes.toNatReversed_lt bytes
  have hpow : 256 ^ bytes.length ≤ 256 ^ 3 := Nat.pow_le_pow_right (by decide) (by omega)
  have hbyte : byte.toNat < 2 ^ 8 := byte.toNat_lt
  rw [word, Bytes.toNatReversed_cons]
  generalize Bytes.toNatReversed bytes = n at hn ⊢
  rw [← UInt32.toNat_inj, UInt32.toNat_xor,
    UInt32.toNat_ofNat_of_lt' (show 256 * n + byte.toNat < 2 ^ 32 by omega),
    UInt32.toNat_ofNat_of_lt' (show n * 2 ^ 8 < 2 ^ 32 by omega), UInt8.toNat_toUInt32,
    Nat.xor_comm, mul_two_pow_xor n hbyte, Nat.mul_comm n]
  rfl

/-- **Up to four bytes** move a state on at once. -/
theorem update_eq (state : UInt32) {bytes : Bytes} (h : bytes.length ≤ 4) :
    update state bytes = times shift (8 * bytes.length) (state ^^^ word bytes) := by
  induction bytes generalizing state with
  | nil => exact UInt32.xor_zero.symm
  | cons byte bytes ih =>
    rw [List.length_cons] at h
    have hn := Bytes.toNatReversed_lt bytes
    have hpow : 256 ^ bytes.length ≤ 256 ^ 3 := Nat.pow_le_pow_right (by decide) (by omega)
    have hword := times_shift_mul (k := 8) (n := Bytes.toNatReversed bytes) (by omega)
    have hrest : update state (byte :: bytes) = update (step state byte) bytes := rfl
    -- the later bytes might as well have been in the state before its first eight shifts
    rw [hrest, ih _ (by omega), word, ← hword, step, ← times_shift_xor, ← times_add,
      UInt32.xor_assoc, ← word_cons (by omega), List.length_cons, Nat.mul_succ, Nat.add_comm]

/-- The state a byte string leaves behind is known from that behind more bytes. -/
theorem update_injective {bytes : Bytes} {x y : UInt32} (h : update x bytes = update y bytes) :
    x = y := by
  induction bytes generalizing x y with
  | nil => exact h
  | cons byte bytes ih => exact (UInt32.xor_left_inj _).mp (times_shift_injective (ih h))

/-- **Four bytes** are known from the state they leave. -/
theorem eq_of_update_eq {state : UInt32} {a b : Bytes} (hl : a.length = b.length)
    (h₄ : a.length ≤ 4) (h : update state a = update state b) : a = b := by
  rw [update_eq state h₄, update_eq state (hl ▸ h₄), ← hl] at h
  have hword : word a = word b := (UInt32.xor_right_inj _).mp (times_shift_injective h)
  have hbound (bytes : Bytes) (hb : bytes.length ≤ 4) : Bytes.toNatReversed bytes < 2 ^ 32 :=
    (Bytes.toNatReversed_lt bytes).trans_le (Nat.pow_le_pow_right (n := 256) (by decide) hb)
  rw [word, word, ← UInt32.toNat_inj, UInt32.toNat_ofNat_of_lt' (hbound a h₄),
    UInt32.toNat_ofNat_of_lt' (hbound b (hl ▸ h₄))] at hword
  exact Bytes.toNatReversed_inj hl hword

/-! ## Sealed byte strings -/

/-- A byte string ends with the checksum of what stands in front of it, least significant byte
first. -/
def Sealed (data : Bytes) : Prop :=
  ∃ body trailer, data = body ++ trailer ∧ trailer.length = 4 ∧
    Bytes.toNatReversed trailer = (checksum body).toNat

theorem sealed_append (body : Bytes) :
    Sealed (body ++ Bytes.ofNatReversed 4 (checksum body).toNat) :=
  ⟨body, _, rfl, Bytes.length_ofNatReversed ..,
    Bytes.toNatReversed_ofNatReversed (checksum body).toNat_lt⟩

/-- The checksum takes the state it is made of away again, whatever that was. -/
theorem Sealed.update_eq {data : Bytes} (h : Sealed data) :
    update init data = times shift 32 0xffffffff := by
  obtain ⟨body, trailer, rfl, hl, htrailer⟩ := h
  have hword : word trailer = finish (update init body) := by
    rw [word, htrailer, UInt32.ofNat_toNat]
    rfl
  rw [update_append, Crc32c.update_eq _ hl.le, hl, hword, finish, ← UInt32.xor_assoc,
    UInt32.xor_self, UInt32.zero_xor]

/-- **Two sealed strings** do not differ in four neighbouring bytes alone. -/
theorem Sealed.eq_of_burst {front a b rear : Bytes} (ha : Sealed (front ++ a ++ rear))
    (hb : Sealed (front ++ b ++ rear)) (hl : a.length = b.length) (h₄ : a.length ≤ 4) : a = b := by
  have h := ha.update_eq.trans hb.update_eq.symm
  rw [update_append, update_append, update_append, update_append] at h
  exact eq_of_update_eq hl h₄ (update_injective h)

end Crc32c

end BagOfCells
