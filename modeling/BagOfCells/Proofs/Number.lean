import BagOfCells.Bits
import BagOfCells.Proofs.Bytes
import Mathlib.Tactic.Ring

/-!
# The numbers of bit strings

A bit string spells a number below the bound of its length, and the low bits of a number spell the
number cut to their width. So numbers that fit a width read back, unsigned ones, those in two's
complement and machine words, for which shifts and masks give the same bits.

## Main results

* `Bits.toNat_append`, `Bits.toNat_lt`: the number of a bit string
* `Bits.toNat_ofNat`, `Bits.ofNat_toNat`: numbers and bit strings back and forth
* `Bits.ofNat_add`, `Bits.ofNat_shiftLeft`, `Bits.ofNat_or`: numbers cut in two, moved and joined
* `Bits.signedSize_le_iff`, `Bits.toNat_ofInt`: the numbers of a width in two's complement
* `Bits.ofWord_eq_ofNat`, `Bits.toNat_toWord`: machine words spell the same bits
-/

namespace BagOfCells.Bits

/-! ## Unsigned numbers -/

theorem foldl_eq (bits : Bits) (n : Nat) :
    bits.foldl (fun n bit => 2 * n + bit.toNat) n = n * 2 ^ bits.length + toNat bits := by
  unfold toNat
  induction bits generalizing n with
  | nil => simp
  | cons bit bits ih =>
    -- the number so far moves up by one place for each bit
    rw [List.foldl_cons, List.foldl_cons, ih, ih (2 * 0 + bit.toNat), List.length_cons]
    ring

@[simp] theorem toNat_nil : toNat [] = 0 := rfl

theorem toNat_cons (bit : Bool) (bits : Bits) :
    toNat (bit :: bits) = bit.toNat * 2 ^ bits.length + toNat bits := by
  rw [toNat, List.foldl_cons, foldl_eq, Nat.mul_zero, Nat.zero_add]

theorem toNat_append (a b : Bits) : toNat (a ++ b) = toNat a * 2 ^ b.length + toNat b := by
  rw [toNat, List.foldl_append, foldl_eq]
  rfl

/-- A bit string spells a number below the bound of its length. -/
theorem toNat_lt (bits : Bits) : toNat bits < 2 ^ bits.length := by
  induction bits with
  | nil => simp
  | cons bit bits ih =>
    have hb : bit.toNat ≤ 1 := Bool.toNat_le bit
    rw [toNat_cons, List.length_cons, Nat.pow_succ']
    calc bit.toNat * 2 ^ bits.length + toNat bits
        < bit.toNat * 2 ^ bits.length + 2 ^ bits.length := by omega
      _ = (bit.toNat + 1) * 2 ^ bits.length := by ring
      _ ≤ 2 * 2 ^ bits.length := Nat.mul_le_mul_right _ (by omega)

theorem toNat_ofNat_mod (width n : Nat) : toNat (ofNat width n) = n % 2 ^ width := by
  induction width with
  | zero => simp [ofNat, Nat.mod_one]
  | succ width ih =>
    rw [ofNat, toNat_cons, ih, length_ofNat, Nat.toNat_testBit, Nat.mod_pow_succ]
    ring

/-- **A number that fits** a width reads back. -/
theorem toNat_ofNat {width n : Nat} (h : n < 2 ^ width) : toNat (ofNat width n) = n := by
  rw [toNat_ofNat_mod, Nat.mod_eq_of_lt h]

/-- Bit strings of one length that spell one number are equal. -/
theorem toNat_inj {a b : Bits} (hl : a.length = b.length) (h : toNat a = toNat b) : a = b := by
  induction a generalizing b with
  | nil => exact (List.eq_nil_of_length_eq_zero hl.symm).symm
  | cons bit a ih =>
    rcases b with _ | ⟨bit', b⟩
    · cases hl
    · have hlen : a.length = b.length := Nat.succ.inj hl
      have ha := toNat_lt a
      have hb := toNat_lt b
      rw [toNat_cons, toNat_cons, hlen] at h
      rw [hlen] at ha
      -- the first bit decides between the lower and the upper half
      cases bit <;> cases bit' <;> simp only [Bool.toNat_false, Bool.toNat_true] at h
      · rw [ih hlen (by omega)]
      · omega
      · omega
      · rw [ih hlen (by omega)]

/-- **A bit string** is that of the number it spells. -/
theorem ofNat_toNat (bits : Bits) : ofNat bits.length (toNat bits) = bits :=
  toNat_inj (length_ofNat ..) (toNat_ofNat (toNat_lt bits))

theorem size_le_iff_lt {n width : Nat} : size n ≤ width ↔ n < 2 ^ width := by
  rw [size_le_iff, bound_eq]

/-! ### The low bits of a number -/

theorem ofNat_congr {width m n : Nat} (h : ∀ i < width, m.testBit i = n.testBit i) :
    ofNat width m = ofNat width n := by
  induction width with
  | zero => rfl
  | succ width ih =>
    rw [ofNat, ofNat, h width width.lt_succ_self, ih fun i hi => h i (Nat.lt_succ_of_lt hi)]

theorem ofNat_mod (width n : Nat) : ofNat width (n % 2 ^ width) = ofNat width n := by
  refine ofNat_congr fun i hi => ?_
  rw [Nat.testBit_mod_two_pow, decide_eq_true hi, Bool.true_and]

/-- The low bits of a number are some of them in front of the others. -/
theorem ofNat_add (k m n : Nat) : ofNat (k + m) n = ofNat k (n >>> m) ++ ofNat m n := by
  induction k with
  | zero => rw [Nat.zero_add]; rfl
  | succ k ih =>
    rw [Nat.succ_add, ofNat, ofNat, ih, Nat.testBit_shiftRight, Nat.add_comm m k, List.cons_append]

theorem ofNat_zero (width : Nat) : ofNat width 0 = List.replicate width false := by
  induction width with
  | zero => rfl
  | succ width ih => rw [ofNat, ih, Nat.zero_testBit, List.replicate_succ]

theorem ofNat_or (width m n : Nat) :
    ofNat width (m ||| n) = List.zipWith (· || ·) (ofNat width m) (ofNat width n) := by
  induction width with
  | zero => rfl
  | succ width ih => rw [ofNat, ofNat, ofNat, ih, List.zipWith_cons_cons, Nat.testBit_or]

/-- A number moved up by some places is followed by zeros. -/
theorem ofNat_shiftLeft (k m n : Nat) :
    ofNat (k + m) (n <<< m) = ofNat k n ++ List.replicate m false := by
  rw [ofNat_add, Nat.shiftLeft_shiftRight, ← ofNat_zero]
  congr 1
  refine ofNat_congr fun i hi => ?_
  rw [Nat.testBit_shiftLeft, Nat.zero_testBit]
  simp [hi]

theorem ofNat_shiftRight {k m n : Nat} (h : n < 2 ^ (k + m)) :
    ofNat (k + m) (n >>> m) = List.replicate m false ++ ofNat k (n >>> m) := by
  have hzero : n >>> m >>> k = 0 := by
    rw [← Nat.shiftRight_add, Nat.shiftRight_eq_div_pow, Nat.add_comm m k, Nat.div_eq_of_lt h]
  rw [Nat.add_comm, ofNat_add, hzero, ofNat_zero]

/-! ## Two's complement -/

/-- **The numbers of a width** in two's complement. -/
theorem signedSize_le_iff {v : Int} {width : Nat} :
    signedSize v ≤ width + 1 ↔ -2 ^ width ≤ v ∧ v < 2 ^ width := by
  have hpow : ((2 ^ width : Nat) : Int) = 2 ^ width := by norm_cast
  have hpos := Nat.two_pow_pos width
  rw [← hpow]
  match v with
  | .ofNat 0 =>
    change 0 ≤ width + 1 ↔ -((2 ^ width : Nat) : Int) ≤ 0 ∧ (0 : Int) < (2 ^ width : Nat)
    omega
  | .ofNat (n + 1) =>
    change size (n + 1) + 1 ≤ width + 1 ↔ _
    rw [Nat.add_le_add_iff_right, size_le_iff_lt, Int.ofNat_eq_natCast]
    omega
  | .negSucc n =>
    change size n + 1 ≤ width + 1 ↔ _
    rw [Nat.add_le_add_iff_right, size_le_iff_lt]
    omega

theorem signedSize_le_zero_iff {v : Int} : signedSize v ≤ 0 ↔ v = 0 := by
  match v with
  | .ofNat 0 => exact ⟨fun _ => rfl, fun _ => le_rfl⟩
  | .ofNat (n + 1) => exact ⟨nofun, nofun⟩
  | .negSucc n => exact ⟨nofun, nofun⟩

/-- What the low bits of a number in two's complement spell. -/
theorem toNat_ofInt {v : Int} {width : Nat} (h : -2 ^ width ≤ v ∧ v < 2 ^ width) :
    (toNat (ofInt (width + 1) v) : Int) = if v < 0 then v + 2 ^ (width + 1) else v := by
  have hpow : (2 : Int) ^ (width + 1) = 2 * 2 ^ width := by ring
  have hb : ((bound (width + 1) : Nat) : Int) = 2 * 2 ^ width := by
    rw [bound_eq, ← hpow]
    norm_cast
  have hmod : v % (2 * 2 ^ width) = if v < 0 then v + 2 * 2 ^ width else v := by
    split
    · rw [← Int.add_emod_right, Int.emod_eq_of_lt (by omega) (by omega)]
    · exact Int.emod_eq_of_lt (by omega) (by omega)
  have hlt : (v % (2 * 2 ^ width)).toNat < 2 ^ (width + 1) := by
    rw [Int.toNat_lt (by rw [hmod]; split <;> omega), Nat.cast_pow, Nat.cast_ofNat, hpow, hmod]
    split <;> omega
  rw [ofInt, hb, toNat_ofNat hlt, Int.toNat_of_nonneg (by rw [hmod]; split <;> omega), hmod, hpow]

/-- The number that a negative one is stored as. -/
theorem natAbs_eq_toNat_ofInt {value : Int} {width : Nat} (h : signedSize value ≤ width)
    (hw : width ≠ 0) :
    (if value < 0 then bound width + value else value).natAbs = toNat (ofInt width value) := by
  obtain ⟨width, rfl⟩ := Nat.exists_eq_succ_of_ne_zero hw
  have hspell := toNat_ofInt (signedSize_le_iff.mp h)
  have hb : ((bound (width + 1) : Nat) : Int) = 2 ^ (width + 1) := by
    rw [bound_eq]
    norm_cast
  rw [← Int.natAbs_natCast (toNat _), hspell, hb, Int.add_comm]

/-- The first bit of a number in two's complement is its sign. -/
theorem head?_ofInt {v : Int} {width : Nat} (h : -2 ^ width ≤ v ∧ v < 2 ^ width) :
    (ofInt (width + 1) v).head? = some (decide (v < 0)) := by
  have hpow : (2 : Int) ^ (width + 1) = 2 * 2 ^ width := by ring
  have hv := toNat_ofInt h
  have hl : (ofInt (width + 1) v).length = width + 1 := length_ofInt ..
  rcases hbits : ofInt (width + 1) v with _ | ⟨bit, bits⟩
  · rw [hbits] at hl
    cases hl
  · rw [hbits, List.length_cons] at hl
    have hlt := toNat_lt bits
    rw [Nat.succ.inj hl, ← Int.ofNat_lt, Nat.cast_pow, Nat.cast_ofNat] at hlt
    rw [hbits, toNat_cons, Nat.succ.inj hl, Nat.cast_add, Nat.cast_mul, Nat.cast_pow,
      Nat.cast_ofNat, hpow] at hv
    rw [List.head?_cons]
    -- with the first bit set the number lies in the upper half
    cases bit <;> simp only [Bool.toNat_false, Bool.toNat_true, Nat.cast_zero, Nat.cast_one] at hv
    · rw [decide_eq_false]
      intro hneg
      rw [if_pos hneg] at hv
      omega
    · rw [decide_eq_true]
      by_contra hneg
      rw [if_neg hneg] at hv
      omega

/-! ## Machine words -/

theorem toNat_toUInt64 {n : Nat} (h : n < 2 ^ 64) : n.toUInt64.toNat = n :=
  UInt64.toNat_ofNat_of_lt' h

theorem shiftRight_and_one {word : UInt64} {i : Nat} (h : i < 64) :
    ((word >>> i.toUInt64) &&& 1 == 1) = word.toNat.testBit i := by
  have hi : i.toUInt64.toNat = i := toNat_toUInt64 (by omega)
  rw [Nat.testBit, Bool.eq_iff_iff, beq_iff_eq, ← UInt64.toNat_inj]
  simp only [UInt64.toNat_and, UInt64.toNat_shiftRight, hi, Nat.mod_eq_of_lt h, UInt64.toNat_one,
    Nat.and_one_is_mod, Nat.one_and_eq_mod_two, bne_iff_ne]
  omega

/-- Shifts and masks give the low bits of a machine word. -/
theorem ofWord_eq_ofNat {width : Nat} (h : width ≤ 64) (word : UInt64) :
    ofWord width word = ofNat width word.toNat := by
  induction width with
  | zero => rfl
  | succ width ih => rw [ofWord, ofNat, ih (by omega), shiftRight_and_one h]

/-- A signed machine word and the same word without a sign have the same low bits. -/
theorem ofInt_word (word : Int64) {width : Nat} (h : width ≤ 64) :
    ofInt width word.toInt = ofNat width word.toUInt64.toNat := by
  have hdvd : ((2 ^ width : Nat) : Int) ∣ ((2 ^ 64 : Nat) : Int) :=
    Int.natCast_dvd_natCast.mpr (Nat.pow_dvd_pow 2 h)
  have hword : word.toInt = (word.toUInt64.toNat : Int).bmod (2 ^ 64) :=
    BitVec.toInt_eq_toNat_bmod word.toBitVec
  have hlow : word.toInt % (2 ^ width : Nat) = (word.toUInt64.toNat % 2 ^ width : Nat) := by
    rw [← Int.emod_emod_of_dvd _ hdvd, hword, Int.bmod_emod, Int.emod_emod_of_dvd _ hdvd,
      Int.natCast_emod]
  rw [ofInt, bound_eq, hlow, Int.toNat_natCast, ofNat_mod]

/-- A machine word moved up drops its high bits. -/
theorem ofNat_word_shiftLeft (word : UInt64) {n : Nat} (h : n < 64) :
    ofNat 64 (word <<< n.toUInt64).toNat = ofNat 64 (word.toNat <<< n) := by
  have hn : n.toUInt64.toNat % 64 = n := by
    rw [toNat_toUInt64 (by omega), Nat.mod_eq_of_lt h]
  rw [UInt64.toNat_shiftLeft, hn, ofNat_mod]

/-- The low bits of a machine word are kept by the mask of their width. -/
theorem testBit_word_and (word : UInt64) {width i : Nat} (h : width < 64) (hi : i < width) :
    (word &&& (1 <<< width.toUInt64 - 1)).toNat.testBit i = word.toNat.testBit i := by
  have hw : width.toUInt64.toNat % 64 = width := by
    rw [toNat_toUInt64 (by omega), Nat.mod_eq_of_lt h]
  have hlt : 2 ^ width < 2 ^ 64 := Nat.pow_lt_pow_right (by decide) h
  have hbound : ((1 : UInt64) <<< width.toUInt64).toNat = 2 ^ width := by
    rw [UInt64.toNat_shiftLeft, hw, UInt64.toNat_one, Nat.one_shiftLeft, Nat.mod_eq_of_lt hlt]
  have hmask : ((1 : UInt64) <<< width.toUInt64 - 1).toNat = 2 ^ width - 1 := by
    rw [UInt64.toNat_sub_of_le, hbound, UInt64.toNat_one]
    rw [UInt64.le_iff_toNat_le, hbound, UInt64.toNat_one]
    exact Nat.one_le_two_pow
  rw [UInt64.toNat_and, hmask, Nat.testBit_and, Nat.testBit_two_pow_sub_one, decide_eq_true hi,
    Bool.and_true]

theorem toNat_shiftLeft_or (word : UInt64) (bit : Bool) :
    ((word <<< 1) ||| bit.toUInt64).toNat = (2 * word.toNat + bit.toNat) % 2 ^ 64 := by
  have hb : bit.toUInt64.toNat = bit.toNat := by cases bit <;> rfl
  have hs : (word <<< 1).toNat = 2 * (word.toNat % 2 ^ 63) := by
    rw [UInt64.toNat_shiftLeft, UInt64.toNat_one, Nat.shiftLeft_eq,
      show 2 ^ (1 % 64) = 2 from rfl]
    omega
  have hor : 2 * (word.toNat % 2 ^ 63) ||| bit.toNat = 2 * (word.toNat % 2 ^ 63) + bit.toNat := by
    have := Nat.two_pow_add_eq_or_of_lt (b := bit.toNat) (i := 1)
      (Nat.lt_succ_of_le (Bool.toNat_le bit)) (word.toNat % 2 ^ 63)
    simpa using this.symm
  have hbit := Bool.toNat_le bit
  rw [UInt64.toNat_or, hb, hs, hor]
  omega

/-- **A machine word** read from at most 64 bits is the number they spell. -/
theorem toNat_toWord {bits : Bits} (h : bits.length ≤ 64) : (toWord bits).toNat = toNat bits := by
  have hfold (bits : Bits) (word : UInt64) :
      (bits.foldl (fun (word : UInt64) bit => (word <<< 1) ||| bit.toUInt64) word).toNat =
        bits.foldl (fun n bit => 2 * n + bit.toNat) word.toNat % 2 ^ 64 := by
    induction bits generalizing word with
    | nil => exact (Nat.mod_eq_of_lt word.toNat_lt).symm
    | cons bit bits ih =>
      rw [List.foldl_cons, ih, List.foldl_cons, toNat_shiftLeft_or, foldl_eq, foldl_eq,
        Nat.add_mod, Nat.mul_mod, Nat.mod_mod, ← Nat.mul_mod, ← Nat.add_mod]
  have hlt : toNat bits < 2 ^ 64 :=
    (toNat_lt bits).trans_le (Nat.pow_le_pow_right (by omega) h)
  rw [toWord, hfold]
  exact Nat.mod_eq_of_lt hlt

/-- A machine word that fits a width reads back. -/
theorem toWord_ofWord {word : UInt64} {width : Nat} (hw : width ≤ 64)
    (h : word.toNat < 2 ^ width) : toWord (ofWord width word) = word := by
  rw [← UInt64.toNat_inj, toNat_toWord (by rw [length_ofWord]; exact hw), ofWord_eq_ofNat hw,
    toNat_ofNat h]

/-- A word of one bit is that bit. -/
theorem toWord_singleton (bit : Bool) : toWord [bit] = if bit then 1 else 0 := by
  cases bit <;> rfl

/-- Whether a machine word fits is seen by shifting it. -/
theorem shiftRight_eq_zero_iff {word : UInt64} {width : Nat} (h : width < 64) :
    word >>> width.toUInt64 = 0 ↔ word.toNat < 2 ^ width := by
  have hi : width.toUInt64.toNat = width := toNat_toUInt64 (by omega)
  rw [← UInt64.toNat_inj, UInt64.toNat_shiftRight, hi, Nat.mod_eq_of_lt h,
    Nat.shiftRight_eq_div_pow, UInt64.toNat_zero, Nat.div_eq_zero_iff]
  have := Nat.two_pow_pos width
  omega

end BagOfCells.Bits
