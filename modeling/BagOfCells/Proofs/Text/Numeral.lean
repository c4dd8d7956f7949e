import BagOfCells.Proofs.Bytes
import BagOfCells.Text.Numeral
import Mathlib.Data.List.Induction

/-!
# What numerals denote

A digit denotes its value, and a numeral with one more digit behind it as many times as much as the
base says, and that digit. Where a plus sign may stand in front of a numeral, it denotes the same
number with it.

## Main definitions

* `Numeral.Digit base c value`: a character is a digit of some value
* `Numeral.Denotes base digits n`: one or more digits denote a number
* `Numeral.Spells signed base text n`: the same, behind a plus sign or not

## Main results

* `Numeral.value?_eq_some_iff`: the value of some digits is the number they denote
* `Numeral.word?_eq_some_iff`: a machine word is read from any numeral of a small number
-/

namespace BagOfCells.Numeral

/-- A character is a digit of a base: one of the ten figures, or a letter of either case for a value
from ten on. -/
def Digit (base : Nat) (c : Char) (value : Nat) : Prop :=
  value < base ∧ (value < 10 ∧ c.toNat = '0'.toNat + value ∨
    10 ≤ value ∧ value < 36 ∧
      (c.toNat = 'a'.toNat + (value - 10) ∨ c.toNat = 'A'.toNat + (value - 10)))

/-- One or more digits denote a number. -/
inductive Denotes (base : Nat) : List Char → Nat → Prop where
  | digit {c : Char} {value : Nat} (h : Digit base c value) : Denotes base [c] value
  | concat {digits : List Char} {n : Nat} {c : Char} {value : Nat} (h : Denotes base digits n)
      (last : Digit base c value) : Denotes base (digits ++ [c]) (base * n + value)

/-- A text denotes a number by its digits, in front of which a plus sign may stand if signs are
allowed. -/
inductive Spells (signed : Prop) (base : Nat) : List Char → Nat → Prop where
  | plain {digits : List Char} {n : Nat} (h : Denotes base digits n) : Spells signed base digits n
  | plus {digits : List Char} {n : Nat} (sign : signed) (h : Denotes base digits n) :
    Spells signed base ('+' :: digits) n

variable {base n value : Nat} {c : Char} {digits text : List Char}

/-! ## Digits -/

theorem isDigit_iff : c.isDigit = true ↔ 48 ≤ c.toNat ∧ c.toNat ≤ 57 := by
  change (decide ('0' ≤ c) && decide (c ≤ '9')) = true ↔ _
  rw [Bool.and_eq_true, decide_eq_true_iff, decide_eq_true_iff]
  exact Iff.rfl

theorem isLower_iff : c.isLower = true ↔ 97 ≤ c.toNat ∧ c.toNat ≤ 122 := by
  change (decide ('a' ≤ c) && decide (c ≤ 'z')) = true ↔ _
  rw [Bool.and_eq_true, decide_eq_true_iff, decide_eq_true_iff]
  exact Iff.rfl

theorem isUpper_iff : c.isUpper = true ↔ 65 ≤ c.toNat ∧ c.toNat ≤ 90 := by
  change decide ('A' ≤ c ∧ c ≤ 'Z') = true ↔ _
  rw [decide_eq_true_iff]
  exact Iff.rfl

theorem digit_iff : Digit base c value ↔ value < base ∧
    (value < 10 ∧ c.toNat = 48 + value ∨ 10 ≤ value ∧ value < 36 ∧
      (c.toNat = 97 + (value - 10) ∨ c.toNat = 65 + (value - 10))) :=
  Iff.rfl

theorem digit?_eq_some_iff : digit? base c = some value ↔ Digit base c value := by
  have h0 : '0'.toNat = 48 := rfl
  have ha : 'a'.toNat = 97 := rfl
  have hA : 'A'.toNat = 65 := rfl
  simp only [digit?, digit_iff, Option.ite_none_right_eq_some, Option.some.injEq, isDigit_iff,
    isLower_iff, isUpper_iff, h0, ha, hA]
  split
  · omega
  · split
    · omega
    · split <;> omega

/-- A digit is an ASCII character other than a plus sign. -/
theorem Digit.ascii (h : Digit base c value) : c.toNat < 128 ∧ c ≠ '+' := by
  rw [digit_iff] at h
  refine ⟨by omega, ?_⟩
  rintro rfl
  have hplus : '+'.toNat = 43 := rfl
  omega

/-! ## Numerals -/

/-- Each character of an ASCII text is one byte. -/
theorem utf8ByteSize_of_ascii (h : ∀ c ∈ text, c.toNat < 128) :
    (String.ofList text).utf8ByteSize = text.length := by
  induction text with
  | nil => rfl
  | cons c text ih =>
    obtain ⟨hc, htext⟩ := List.forall_mem_cons.mp h
    have hone : c.utf8Size = 1 := Char.utf8Size_eq_one_iff.mpr (Nat.le_of_lt_succ hc)
    rw [String.ofList_cons, String.utf8ByteSize_append, String.utf8ByteSize_singleton, hone,
      ih htext, List.length_cons, Nat.add_comm]

theorem Denotes.ne_nil (h : Denotes base digits n) : digits ≠ [] := by
  cases h with
  | digit _ => exact List.cons_ne_nil _ _
  | concat _ _ => exact List.append_ne_nil_of_right_ne_nil _ (List.cons_ne_nil _ _)

theorem Denotes.ascii (h : Denotes base digits n) : ∀ c ∈ digits, c.toNat < 128 ∧ c ≠ '+' := by
  induction h with
  | digit h => exact List.forall_mem_singleton.mpr h.ascii
  | concat _ last ih =>
    exact List.forall_mem_append.mpr ⟨ih, List.forall_mem_singleton.mpr last.ascii⟩

/-- A number needs as many digits as keep it below that power of the base. -/
theorem Denotes.lt (h : Denotes base digits n) : n < base ^ digits.length := by
  induction h with
  | digit h => rw [List.length_singleton, pow_one]; exact h.1
  | @concat digits n c value _ last ih =>
    rw [List.length_append, List.length_singleton, pow_succ']
    calc base * n + value < base * n + base := Nat.add_lt_add_left last.1 _
      _ = base * (n + 1) := (Nat.mul_succ base n).symm
      _ ≤ base * base ^ digits.length := Nat.mul_le_mul_left base ih

theorem foldlM_concat (digits : List Char) (c : Char) :
    (digits ++ [c]).foldlM (fun n c => (digit? base c).map (base * n + ·)) 0 = some n ↔
      ∃ m value, digits.foldlM (fun n c => (digit? base c).map (base * n + ·)) 0 = some m ∧
        Digit base c value ∧ base * m + value = n := by
  rw [List.foldlM_append]
  simp only [List.foldlM_cons, List.foldlM_nil, bind_pure, Option.bind_eq_bind,
    Option.bind_eq_some_iff, Option.map_eq_some_iff, digit?_eq_some_iff, exists_and_left]

/-- **The value** of a text without a sign is the number it denotes. -/
theorem value?_eq_some_iff : value? base digits = some n ↔ Denotes base digits n := by
  constructor
  · intro h
    -- by the last digit, as numerals are made; the fold goes from the first one on
    induction digits using List.reverseRecOn generalizing n with
    | nil => cases h
    | append_singleton digits c ih =>
      rw [value?, if_neg (by simp)] at h
      obtain ⟨m, value, hfold, hdigit, rfl⟩ := (foldlM_concat digits c).mp h
      rcases eq_or_ne digits [] with rfl | hne
      -- a single digit is a numeral, although there is none in front of it
      · cases hfold
        rw [Nat.mul_zero, Nat.zero_add]
        exact .digit hdigit
      · refine .concat (ih ?_) hdigit
        rwa [value?, if_neg (by rwa [List.isEmpty_iff])]
  · intro h
    rw [value?, if_neg (by rw [List.isEmpty_iff]; exact h.ne_nil)]
    induction h with
    | @digit c value h =>
      exact (foldlM_concat [] c).mpr ⟨0, value, rfl, h, by rw [Nat.mul_zero, Nat.zero_add]⟩
    | concat _ last ih => exact (foldlM_concat _ _).mpr ⟨_, _, ih, last, rfl⟩

/-- The characters of a numeral are ASCII characters, and no plus sign if none is allowed. -/
theorem Spells.ascii {signed : Prop} (h : Spells signed base text n) :
    ∀ c ∈ text, c.toNat < 128 ∧ (c = '+' → signed) := by
  intro c hc
  cases h with
  | plain h =>
    obtain ⟨hlt, hne⟩ := h.ascii c hc
    exact ⟨hlt, fun hplus => absurd hplus hne⟩
  | plus sign h =>
    rcases List.mem_cons.mp hc with rfl | hc
    · exact ⟨by decide, fun _ => sign⟩
    · exact ⟨(h.ascii c hc).1, fun _ => sign⟩

theorem Spells.ne_nil {signed : Prop} (h : Spells signed base text n) : text ≠ [] := by
  cases h with
  | plain h => exact h.ne_nil
  | plus _ _ => exact List.cons_ne_nil _ _

theorem Spells.mono {signed signed' : Prop} (h : Spells signed base text n)
    (hs : '+' ∈ text → signed → signed') : Spells signed' base text n := by
  cases h with
  | plain h => exact .plain h
  | plus sign h => exact .plus (hs List.mem_cons_self sign) h

/-- A number needs as many characters as keep it below that power of the base, whether one of them
is a sign or not. -/
theorem Spells.lt {signed : Prop} (hbase : 0 < base) (h : Spells signed base text n) :
    n < base ^ text.length := by
  cases h with
  | plain h => exact h.lt
  | plus _ h => exact h.lt.trans_le (Nat.pow_le_pow_right hbase (Nat.le_succ _))

/-- The value of some digits as a machine word. -/
theorem bind_value?_eq_some_iff {word : UInt64} :
    ((value? base digits).bind fun n =>
      if n < Bits.bound 64 then some (UInt64.ofNat n) else none) = some word ↔
        Denotes base digits word.toNat := by
  rw [Option.bind_eq_some_iff, ← value?_eq_some_iff]
  constructor
  · rintro ⟨n, hvalue, h⟩
    obtain ⟨hlt, hword⟩ := Option.ite_none_right_eq_some.mp h
    obtain rfl := Option.some.inj hword
    rw [Bits.bound_eq] at hlt
    rwa [UInt64.toNat_ofNat_of_lt' hlt]
  · intro hvalue
    refine ⟨word.toNat, hvalue, ?_⟩
    rw [Bits.bound_eq, if_pos word.toNat_lt, UInt64.ofNat_toNat]

/-- **A machine word** is read from the numerals of the numbers below `2 ^ 64`, a plus sign
allowed. -/
theorem word?_eq_some_iff {word : UInt64} :
    word? base text = some word ↔ Spells True base text word.toNat := by
  unfold word?
  split
  · next digits =>
    rw [bind_value?_eq_some_iff]
    refine ⟨.plus trivial, fun h => ?_⟩
    cases h with
    | plain h => exact absurd rfl (h.ascii '+' List.mem_cons_self).2
    | plus _ h => exact h
  · next hplain =>
    rw [bind_value?_eq_some_iff]
    refine ⟨.plain, fun h => ?_⟩
    cases h with
    | plain h => exact h
    | @plus digits _ _ _ => exact absurd rfl (hplain digits)

end BagOfCells.Numeral
