import BagOfCells.Proofs.Schema.Built
import BagOfCells.Proofs.Text.Blank
import BagOfCells.Proofs.Text.Numeral

/-!
# The language of tags

A tag is given as a text of a few words. Which words are a tag, and which one, is said here word by
word, as the head of `Schema.Tag` lists them, and then the tag of a text is found to be the one that
its words are. Only the numerals are read more freely than the list says: a plus sign may stand in
front of their digits, and in a constant it counts as one of them. So the language is given with and
without such signs; a text without plus signs is read as the list says, and a text with one in it,
which is none of the listed ones, is a tag only for the sake of the sign.

## Main definitions

* `FieldTag.Spelled signed words tag`: the words that are a tag, with signs or without them
* `FieldTag.WithinWidth`: a constant in a tag fits its width

## Main results

* `FieldTag.parseWords_eq_ok_iff`: the tag of some words
* `FieldTag.spelled_without_signs_iff`: the language without signs
* `FieldTag.parse_exact`: the tag of a text
-/

namespace BagOfCells.FieldTag

open Numeral Outcome

/-- The words that are a tag, where plus signs are allowed or not. -/
inductive Spelled (signed : Prop) : List (List Char) → FieldTag → Prop where
  | uint {text : List Char} {width : Nat} (h : Spells signed 10 text width) (hle : width ≤ 1023) :
    Spelled signed ["##".toList, text] (.uint width)
  | int {text : List Char} {width : Nat} (h : Spells signed 10 text width) (hle : width ≤ 1023) :
    Spelled signed ["int".toList, text] (.int width)
  | bits {text : List Char} {width : Nat} (h : Spells signed 10 text width) (hle : width ≤ 1023) :
    Spelled signed ["bits".toList, text] (.bits width)
  | dict {text : List Char} {width : Nat} (h : Spells signed 10 text width) (hle : width ≤ 1023) :
    Spelled signed ["dict".toList, text] (.dict width)
  | bool : Spelled signed ["bool".toList] .bool
  | coins : Spelled signed ["coins".toList] .coins
  | address : Spelled signed ["addr".toList] .address
  | ref : Spelled signed ["^".toList] (.ref .cell)
  | inline : Spelled signed [".".toList] (.inline .cell)
  | either : Spelled signed ["either".toList, ".".toList, "^".toList] (.either .cell)
  | hex {digits : List Char} {value : UInt64} (h : Spells signed 16 digits value.toNat)
      (hlength : digits.length ≤ 16) :
    Spelled signed ['#' :: digits] (.magic value (4 * digits.length))
  | binary {digits : List Char} {value : UInt64} (h : Spells signed 2 digits value.toNat)
      (hlength : digits.length ≤ 64) : Spelled signed ['$' :: digits] (.magic value digits.length)
  | maybe {words : List (List Char)} {inner : FieldTag} (h : Spelled signed words inner) :
    Spelled signed ("maybe".toList :: words) (.maybe inner)

/-- A constant in a tag fits its width. -/
def WithinWidth : FieldTag → Prop
  | .magic value width => value.toNat < 2 ^ width
  | .maybe inner => inner.WithinWidth
  | .uint _ | .int _ | .bits _ | .bool | .coins | .address | .ref _ | .inline _ | .either _
  | .dict _ => True

variable {signed : Prop} {text digits : List Char} {words : List (List Char)} {tag : FieldTag}

/-! ## Widths and constants -/

theorem parseWidth_eq_ok_iff {width : Nat} :
    parseWidth text = .ok width ↔ Spells True 10 text width ∧ width ≤ 1023 := by
  have hmax : Cell.maxBits = 1023 := rfl
  unfold parseWidth
  constructor
  · intro h
    split at h
    · cases h
    · next word hword =>
      split at h
      · cases h
      · next hle =>
        cases h
        exact ⟨word?_eq_some_iff.mp hword, Nat.not_lt.mp hle⟩
  · rintro ⟨h, hle⟩
    have hnat : (UInt64.ofNat width).toNat = width :=
      UInt64.toNat_ofNat_of_lt' (hle.trans_lt (by decide))
    have hword : word? 10 text = some (UInt64.ofNat width) :=
      word?_eq_some_iff.mpr (by rwa [hnat])
    rw [hword]
    dsimp only
    rw [hnat, if_neg (by omega)]

/-- Four tags are a name with a width behind it. -/
theorem map_parseWidth_eq_ok_iff (make : Nat → FieldTag) :
    (parseWidth text).map make = .ok tag ↔
      ∃ width, (Spells True 10 text width ∧ width ≤ 1023) ∧ make width = tag := by
  simp only [map_eq_ok_iff, parseWidth_eq_ok_iff]

/-- **A constant** is read from the numerals that are not too long, a sign counting as a digit. -/
theorem parseConstant_eq_ok_iff (base perDigit : Nat) :
    parseConstant digits base perDigit = .ok tag ↔ ∃ value : UInt64,
      Spells True base digits value.toNat ∧ digits.length * perDigit ≤ 64 ∧
        tag = .magic value (digits.length * perDigit) := by
  have hsize {n : Nat} (h : Spells True base digits n) :
      (String.ofList digits).utf8ByteSize = digits.length :=
    utf8ByteSize_of_ascii fun c hc => (h.ascii c hc).1
  simp only [parseConstant]
  constructor
  · intro h
    split at h
    · cases h
    · next hlength =>
      split at h
      · next value hvalue =>
        cases h
        have hspells := word?_eq_some_iff.mp hvalue
        rw [hsize hspells] at hlength ⊢
        exact ⟨value, hspells, Nat.not_lt.mp (not_or.mp hlength).2, rfl⟩
      · cases h
  · rintro ⟨value, h, hle, rfl⟩
    have hne : ¬ (digits.isEmpty = true ∨ digits.length * perDigit > 64) := by
      rw [List.isEmpty_iff, not_or]
      exact ⟨h.ne_nil, Nat.not_lt.mpr hle⟩
    rw [hsize h, if_neg hne, word?_eq_some_iff.mpr h]

/-! ## Words -/

theorem Spelled.ne_nil (h : Spelled signed words tag) : words ≠ [] := by
  cases h <;> exact List.cons_ne_nil _ _

/-- **The tag of some words** is the one they are, with signs. -/
theorem parseWords_eq_ok_iff : parseWords words = .ok tag ↔ Spelled True words tag := by
  constructor
  · intro h
    -- one case for each tag of the list, and the last one for all other words
    fun_induction parseWords words generalizing tag with
    | case1 word words ih =>
      obtain ⟨inner, hinner, rfl⟩ := map_eq_ok_iff.mp h
      exact .maybe (ih hinner)
    | case2 text =>
      obtain ⟨width, ⟨hspells, hle⟩, rfl⟩ := (map_parseWidth_eq_ok_iff uint).mp h
      exact .uint hspells hle
    | case3 text =>
      obtain ⟨width, ⟨hspells, hle⟩, rfl⟩ := (map_parseWidth_eq_ok_iff int).mp h
      exact .int hspells hle
    | case4 text =>
      obtain ⟨width, ⟨hspells, hle⟩, rfl⟩ := (map_parseWidth_eq_ok_iff bits).mp h
      exact .bits hspells hle
    | case5 text =>
      obtain ⟨width, ⟨hspells, hle⟩, rfl⟩ := (map_parseWidth_eq_ok_iff dict).mp h
      exact .dict hspells hle
    | case6 => cases h; exact .bool
    | case7 => cases h; exact .coins
    | case8 => cases h; exact .address
    | case9 => cases h; exact .ref
    | case10 => cases h; exact .inline
    | case11 => cases h; exact .either
    | case12 digits =>
      obtain ⟨value, hspells, hle, rfl⟩ := (parseConstant_eq_ok_iff 16 4).mp h
      rw [Nat.mul_comm]
      exact .hex hspells (by omega)
    | case13 digits =>
      obtain ⟨value, hspells, hle, rfl⟩ := (parseConstant_eq_ok_iff 2 1).mp h
      rw [Nat.mul_one] at hle ⊢
      exact .binary hspells hle
    | case14 => cases h
  · intro h
    induction h with
    | uint h hle | int h hle | bits h hle | dict h hle =>
      exact (map_parseWidth_eq_ok_iff _).mpr ⟨_, ⟨h, hle⟩, rfl⟩
    | bool | coins | address | ref | inline | either => rfl
    | hex h hlength =>
      rw [parseWords]
      refine (parseConstant_eq_ok_iff 16 4).mpr ⟨_, h, by omega, ?_⟩
      rw [Nat.mul_comm]
    | binary h hlength =>
      refine (parseConstant_eq_ok_iff 2 1).mpr ⟨_, h, by omega, ?_⟩
      rw [Nat.mul_one]
    | @maybe words inner h ih =>
      -- the prefix alone is no tag, which the reader sees by the word behind it
      cases words with
      | nil => exact absurd rfl h.ne_nil
      | cons word words => exact map_eq_ok_iff.mpr ⟨inner, ih, rfl⟩

/-! ## Signs -/

/-- There are plus signs in the words of a tag only where they are allowed. -/
theorem Spelled.of_plus (h : Spelled signed words tag) :
    ∀ word ∈ words, '+' ∈ word → signed := by
  have hplus {base n : Nat} {text : List Char} (h : Spells signed base text n) :
      '+' ∈ text → signed := fun hmem => (h.ascii '+' hmem).2 rfl
  induction h with
  | uint h _ | int h _ | bits h _ | dict h _ | hex h _ | binary h _ => simpa using hplus h
  | bool | coins | address | ref | inline | either => simp
  | maybe _ ih => exact List.forall_mem_cons.mpr ⟨by simp, ih⟩

/-- Whether signs are allowed matters only for words with a plus sign in them. -/
theorem Spelled.mono {signed' : Prop} (h : Spelled signed words tag)
    (hs : ∀ word ∈ words, '+' ∈ word → signed → signed') : Spelled signed' words tag := by
  have hdigits {c : Char} {digits : List Char}
      (hs : ∀ word ∈ [c :: digits], '+' ∈ word → signed → signed') :
      '+' ∈ digits → signed → signed' := fun hplus =>
    hs _ (List.mem_singleton_self _) (List.mem_cons_of_mem _ hplus)
  induction h with
  | uint h hle => exact .uint (h.mono (hs _ (by simp))) hle
  | int h hle => exact .int (h.mono (hs _ (by simp))) hle
  | bits h hle => exact .bits (h.mono (hs _ (by simp))) hle
  | dict h hle => exact .dict (h.mono (hs _ (by simp))) hle
  | hex h hlength => exact .hex (h.mono (hdigits hs)) hlength
  | binary h hlength => exact .binary (h.mono (hdigits hs)) hlength
  | bool => exact .bool
  | coins => exact .coins
  | address => exact .address
  | ref => exact .ref
  | inline => exact .inline
  | either => exact .either
  | maybe _ ih => exact .maybe (ih fun word hw => hs word (List.mem_cons_of_mem _ hw))

/-- **The language without signs** is that of the words without plus signs. -/
theorem spelled_without_signs_iff :
    Spelled False words tag ↔ Spelled True words tag ∧ ∀ word ∈ words, '+' ∉ word := by
  constructor
  · intro h
    exact ⟨h.mono fun _ _ _ => False.elim, h.of_plus⟩
  · rintro ⟨h, hwords⟩
    exact h.mono fun word hw hplus => absurd hplus (hwords word hw)

/-- A constant has at least one digit for each of the places of its value. -/
theorem Spelled.withinWidth (h : Spelled signed words tag) : tag.WithinWidth := by
  induction h with
  | @hex digits value h _ =>
    have hlt := h.lt (by decide)
    rwa [show 16 = 2 ^ 4 from rfl, ← pow_mul] at hlt
  | binary h _ => exact h.lt (by decide)
  | maybe _ ih => exact ih
  | _ => trivial

/-! ## Texts -/

theorem parse_eq_ok_iff {text : String} :
    parse text = .ok tag ↔ ∃ words, Blank.Splits text.toList words ∧ Spelled True words tag := by
  have hwords : parse text = .ok tag ↔ parseWords (Blank.words text.toList) = .ok tag := by
    unfold parse
    cases parseWords (Blank.words text.toList) with
    | ok found => simp [Except.mapError]
    | error fault => exact ⟨nofun, nofun⟩
  rw [hwords, parseWords_eq_ok_iff]
  constructor
  · intro h
    exact ⟨_, Blank.splits_words _, h⟩
  · rintro ⟨words, hsplits, h⟩
    rwa [hsplits.words_eq]

/-- **The tag of a text** is the one that its words are in the language with signs, and a constant
in it fits its width; a text without such words is refused. So a text without plus signs is read by
the language without signs, and that language gives no tag to any other text. -/
theorem parse_exact (text : String) :
    (∀ tag, parse text = .ok tag ↔
      ∃ words, Blank.Splits text.toList words ∧ Spelled True words tag) ∧
    (∀ tag, parse text = .ok tag → tag.WithinWidth) ∧
    (∀ e, parse text = .error e → ∃ fault, e = .malformed (.tag text fault)) ∧
    ('+' ∉ text.toList → ∀ tag, parse text = .ok tag ↔
      ∃ words, Blank.Splits text.toList words ∧ Spelled False words tag) ∧
    ('+' ∈ text.toList →
      ¬ ∃ words tag, Blank.Splits text.toList words ∧ Spelled False words tag) := by
  refine ⟨fun tag => parse_eq_ok_iff, fun tag h => ?_, fun e h => ?_, fun hplus tag => ?_, ?_⟩
  · obtain ⟨words, -, hspelled⟩ := parse_eq_ok_iff.mp h
    exact hspelled.withinWidth
  · unfold parse at h
    cases hwords : parseWords (Blank.words text.toList) with
    | ok found =>
      rw [hwords] at h
      cases h
    | error fault =>
      rw [hwords] at h
      cases h
      exact ⟨fault, rfl⟩
  · rw [parse_eq_ok_iff]
    refine exists_congr fun words => and_congr_right fun hsplits => ?_
    rw [spelled_without_signs_iff, iff_self_and]
    intro _ word hw hmem
    exact hplus ((hsplits.mem_iff (by decide)).mpr ⟨word, hw, hmem⟩)
  · rintro hplus ⟨words, tag, hsplits, h⟩
    obtain ⟨word, hw, hmem⟩ := (hsplits.mem_iff (by decide)).mp hplus
    exact (spelled_without_signs_iff.mp h).2 word hw hmem

-- the sign of this constant counts as its second digit
example : parse "#+5" = .ok (.magic 5 8) := by
  rfl

end BagOfCells.FieldTag
