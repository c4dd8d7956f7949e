import BagOfCells.Proofs.Text.Numeral
import BagOfCells.Text.Base64

/-!
# Base64 there and back

A text is read as some bytes exactly if it is the text that is written for them. Padding is in
nobody's alphabet, so it ends the letters; each letter stands for one number; and the bits left over
in the last letter are zeros, both as written and as read.

## Main definitions

* `Base64.Variant.Lawful`: the letters of a variant stand for their numbers, and padding for none

## Main results

* `Base64.ofSextets?_eq_some_iff`: bytes and their six-bit groups
* `Base64.decode?_eq_some_iff`: texts and bytes
* `Base64.eq_of_encode_eq`: a text in both alphabets
-/

namespace BagOfCells.Base64

/-- Each letter of a variant stands for its own number, and the padding for none. -/
structure Variant.Lawful (variant : Variant) : Prop where
  value?_letter : ∀ n < 64, variant.value? (variant.letter n) = some n
  value?_padding : variant.value? '=' = none

variable {variant : Variant} {bytes : List UInt8} {groups : List Nat} {text letters : List Char}

theorem lawful_standard : standard.Lawful := ⟨by decide, rfl⟩

theorem lawful_urlSafeUnpadded : urlSafeUnpadded.Lawful := ⟨by decide, rfl⟩

/-! ## Letters -/

/-- A letter is the one of the number it stands for. -/
theorem Variant.letter_of_value? {c : Char} {n : Nat} (h : variant.value? c = some n) :
    n < 64 ∧ variant.letter n = c := by
  have h0 : '0'.toNat = 48 := rfl
  have ha : 'a'.toNat = 97 := rfl
  have hA : 'A'.toNat = 65 := rfl
  have hofNat {m : Nat} (hm : m = c.toNat) : Char.ofNat m = c := by rw [hm, Char.ofNat_toNat]
  simp only [value?, Numeral.isUpper_iff, Numeral.isLower_iff, Numeral.isDigit_iff, h0, ha, hA] at h
  simp only [letter, h0, ha, hA]
  split at h
  · obtain rfl := Option.some.inj h
    rw [if_pos (by omega)]
    exact ⟨by omega, hofNat (by omega)⟩
  split at h
  · obtain rfl := Option.some.inj h
    rw [if_neg (by omega), if_pos (by omega)]
    exact ⟨by omega, hofNat (by omega)⟩
  split at h
  · obtain rfl := Option.some.inj h
    rw [if_neg (by omega), if_neg (by omega), if_pos (by omega)]
    exact ⟨by omega, hofNat (by omega)⟩
  split at h
  · next hc =>
    obtain rfl := Option.some.inj h
    exact ⟨by decide, hc.symm⟩
  split at h
  · next hc =>
    obtain rfl := Option.some.inj h
    exact ⟨by decide, hc.symm⟩
  · cases h

/-- The letters of some six-bit groups stand for these. -/
theorem mapM_value?_map_letter (hv : variant.Lawful) (hg : ∀ n ∈ groups, n < 64) :
    (groups.map variant.letter).mapM variant.value? = some groups := by
  induction groups with
  | nil => rfl
  | cons n groups ih =>
    obtain ⟨hn, hgroups⟩ := List.forall_mem_cons.mp hg
    rw [List.map_cons, List.mapM_cons, hv.value?_letter n hn, ih hgroups]
    rfl

/-- No other letters stand for them. -/
theorem eq_map_letter_of_mapM (h : letters.mapM variant.value? = some groups) :
    letters = groups.map variant.letter ∧ ∀ n ∈ groups, n < 64 := by
  induction letters generalizing groups with
  | nil =>
    cases h
    exact ⟨rfl, nofun⟩
  | cons c letters ih =>
    rw [List.mapM_cons] at h
    obtain ⟨n, hn, h⟩ := Option.bind_eq_some_iff.mp h
    obtain ⟨rest, hrest, h⟩ := Option.bind_eq_some_iff.mp h
    obtain rfl := Option.some.inj h
    obtain ⟨hlt, hletter⟩ := Variant.letter_of_value? hn
    obtain ⟨hletters, hlts⟩ := ih hrest
    rw [List.map_cons, hletter, ← hletters]
    exact ⟨rfl, List.forall_mem_cons.mpr ⟨hlt, hlts⟩⟩

/-! ## Six-bit groups -/

theorem sextets_lt (bytes : List UInt8) : ∀ n ∈ sextets bytes, n < 64 := by
  fun_induction sextets bytes with
  | case1 a b c rest ih =>
    have ha := a.toNat_lt
    have hb := b.toNat_lt
    have hc := c.toNat_lt
    exact List.forall_mem_cons.mpr ⟨by omega, List.forall_mem_cons.mpr ⟨by omega,
      List.forall_mem_cons.mpr ⟨by omega, List.forall_mem_cons.mpr ⟨by omega, ih⟩⟩⟩⟩
  | case2 a b =>
    have ha := a.toNat_lt
    have hb := b.toNat_lt
    exact List.forall_mem_cons.mpr ⟨by omega, List.forall_mem_cons.mpr ⟨by omega,
      List.forall_mem_singleton.mpr (by omega)⟩⟩
  | case3 a =>
    have ha := a.toNat_lt
    exact List.forall_mem_cons.mpr ⟨by omega, List.forall_mem_singleton.mpr (by omega)⟩
  | case4 => exact nofun

theorem ofNat_eq (byte : UInt8) {n : Nat} (h : n = byte.toNat) : UInt8.ofNat n = byte := by
  rw [h, UInt8.ofNat_toNat]

theorem ofSextets?_sextets (bytes : List UInt8) : ofSextets? (sextets bytes) = some bytes := by
  fun_induction sextets bytes with
  | case1 a b c rest ih =>
    have hb := b.toNat_lt
    have hc := c.toNat_lt
    rw [ofSextets?, ih, Option.map_some, ofNat_eq a (by omega), ofNat_eq b (by omega),
      ofNat_eq c (by omega)]
  | case2 a b =>
    have hb := b.toNat_lt
    rw [ofSextets?, if_pos (by omega), ofNat_eq a (by omega), ofNat_eq b (by omega)]
  | case3 a => rw [ofSextets?, if_pos (by omega), ofNat_eq a (by omega)]
  | case4 => rfl

theorem sextets_of_ofSextets? (hg : ∀ n ∈ groups, n < 64) (h : ofSextets? groups = some bytes) :
    sextets bytes = groups := by
  have hbyte {n : Nat} (hn : n < 256) : (UInt8.ofNat n).toNat = n := UInt8.toNat_ofNat_of_lt' hn
  -- below 64 each group is told by the bytes made of it, the last one as its spare bits are zeros
  fun_induction ofSextets? groups generalizing bytes with
  | case1 a b c d rest ih =>
    simp only [List.forall_mem_cons] at hg
    obtain ⟨ha, hb, hc, hd, hrest⟩ := hg
    obtain ⟨later, hlater, rfl⟩ := Option.map_eq_some_iff.mp h
    rw [sextets, ih hrest hlater, hbyte (by omega), hbyte (by omega), hbyte (by omega)]
    simp only [List.cons.injEq, and_true]
    omega
  | case2 a b c hzero =>
    simp only [List.forall_mem_cons] at hg
    obtain rfl := Option.some.inj h
    rw [sextets, hbyte (by omega), hbyte (by omega)]
    simp only [List.cons.injEq, and_true]
    omega
  | case4 a b hzero =>
    simp only [List.forall_mem_cons] at hg
    obtain rfl := Option.some.inj h
    rw [sextets, hbyte (by omega)]
    simp only [List.cons.injEq, and_true]
    omega
  | case3 | case5 | case6 => cases h
  | case7 =>
    obtain rfl := Option.some.inj h
    rfl

/-- **Bytes and six-bit groups** tell each other. -/
theorem ofSextets?_eq_some_iff (hg : ∀ n ∈ groups, n < 64) :
    ofSextets? groups = some bytes ↔ groups = sextets bytes := by
  constructor
  · intro h
    exact (sextets_of_ofSextets? hg h).symm
  · rintro rfl
    exact ofSextets?_sextets bytes

theorem sextets_inj {a b : List UInt8} (h : sextets a = sextets b) : a = b := by
  have ha := ofSextets?_sextets a
  rw [h, ofSextets?_sextets] at ha
  exact (Option.some.inj ha).symm

theorem length_sextets (bytes : List UInt8) :
    (sextets bytes).length = (4 * bytes.length + 2) / 3 := by
  fun_induction sextets bytes with
  | case1 a b c rest ih =>
    simp only [List.length_cons, ih]
    omega
  | case2 | case3 | case4 => simp

/-! ## Padding -/

/-- The letters of a text end where its padding begins. -/
theorem takeWhile_padding (hl : ∀ c ∈ letters, c ≠ '=') (n : Nat) :
    (letters ++ padding n).takeWhile (· != '=') = letters := by
  rw [List.takeWhile_append_of_pos (by simpa using hl), padding, List.takeWhile_replicate,
    if_neg (by decide), List.append_nil]

theorem unpad?_eq_some_iff (hl : ∀ c ∈ letters, c ≠ '=') :
    unpad? variant text = some letters ↔
      text = if variant.padded then letters ++ padding letters.length else letters := by
  unfold unpad?
  split
  · simp only [Option.ite_none_right_eq_some, Option.some.injEq]
    constructor
    · rintro ⟨h, hletters⟩
      rwa [hletters] at h
    · rintro rfl
      rw [takeWhile_padding hl]
      exact ⟨rfl, rfl⟩
  · rw [Option.some.injEq]

/-! ## Texts -/

/-- What stands for no number is no letter. -/
theorem Variant.Lawful.letter_ne (hv : variant.Lawful) {c : Char} (hc : variant.value? c = none)
    {n : Nat} (hn : n < 64) : variant.letter n ≠ c := by
  rintro rfl
  rw [hv.value?_letter n hn] at hc
  cases hc

/-- What is neither a letter nor padding is in no text. -/
theorem not_mem_encode (hv : variant.Lawful) {c : Char} (hc : variant.value? c = none)
    (hpadding : c ≠ '=') : c ∉ encode variant bytes := by
  have hletters : c ∉ (sextets bytes).map variant.letter := by
    intro hmem
    obtain ⟨n, hn, hletter⟩ := List.mem_map.mp hmem
    exact hv.letter_ne hc (sextets_lt bytes n hn) hletter
  simp only [encode]
  split
  · rw [List.mem_append, not_or]
    exact ⟨hletters, fun hmem => hpadding (List.eq_of_mem_replicate hmem)⟩
  · exact hletters

/-- **A text** is read as some bytes exactly if it is written for them. -/
theorem decode?_eq_some_iff (hv : variant.Lawful) :
    decode? variant text = some bytes ↔ text = encode variant bytes := by
  have hletters {groups : List Nat} (hg : ∀ n ∈ groups, n < 64) :
      ∀ c ∈ groups.map variant.letter, c ≠ '=' := by
    intro c hc
    obtain ⟨n, hn, rfl⟩ := List.mem_map.mp hc
    exact hv.letter_ne hv.value?_padding (hg n hn)
  unfold decode?
  simp only [Option.bind_eq_bind, Option.bind_eq_some_iff]
  constructor
  · rintro ⟨letters, hunpad, groups, hgroups, hbytes⟩
    obtain ⟨rfl, hg⟩ := eq_map_letter_of_mapM hgroups
    obtain rfl := (ofSextets?_eq_some_iff hg).mp hbytes
    exact (unpad?_eq_some_iff (hletters hg)).mp hunpad
  · intro h
    have hg := sextets_lt bytes
    exact ⟨_, (unpad?_eq_some_iff (hletters hg)).mpr h, sextets bytes,
      mapM_value?_map_letter hv hg, ofSextets?_sextets bytes⟩

/-! ## Two alphabets -/

/-- A letter of both alphabets stands for the same number in either. -/
theorem eq_of_letter_eq {n m : Nat} (hn : n < 64) (hm : m < 64)
    (h : urlSafeUnpadded.letter n = standard.letter m) : n = m := by
  have hall : ∀ n < 64, ∀ m < 64, urlSafeUnpadded.letter n = standard.letter m → n = m := by
    decide +kernel
  exact hall n hn m hm h

/-- So do letters of two variants that agree on every number, one after the other. -/
theorem eq_of_map_letter_eq {variant' : Variant} {groups' : List Nat}
    (hv : ∀ n < 64, ∀ m < 64, variant.letter n = variant'.letter m → n = m)
    (hg : ∀ n ∈ groups, n < 64) (hg' : ∀ n ∈ groups', n < 64)
    (h : groups.map variant.letter = groups'.map variant'.letter) : groups = groups' := by
  induction groups generalizing groups' with
  | nil => exact (List.map_eq_nil_iff.mp h.symm).symm
  | cons n groups ih =>
    rcases groups' with _ | ⟨m, groups'⟩
    · cases h
    · obtain ⟨hn, hgroups⟩ := List.forall_mem_cons.mp hg
      obtain ⟨hm, hgroups'⟩ := List.forall_mem_cons.mp hg'
      obtain ⟨hletter, hletters⟩ := List.cons.inj h
      rw [hv n hn m hm hletter, ih hgroups hgroups' hletters]

/-- Whole groups of bytes leave no padding. -/
theorem encode_standard (h : bytes.length % 3 = 0) :
    encode standard bytes = (sextets bytes).map standard.letter := by
  have hnone : (4 - (sextets bytes).length % 4) % 4 = 0 := by
    rw [length_sextets]
    omega
  change (sextets bytes).map standard.letter ++ padding ((sextets bytes).map standard.letter).length
    = _
  rw [padding, List.length_map, hnone, List.replicate_zero, List.append_nil]

/-- **A text in both alphabets** is the text of the same bytes in either. -/
theorem eq_of_encode_eq {bytes' : List UInt8} (h' : bytes'.length % 3 = 0)
    (h : encode urlSafeUnpadded bytes = encode standard bytes') : bytes = bytes' := by
  rw [encode_standard h'] at h
  exact sextets_inj (eq_of_map_letter_eq (fun _ hn _ hm => eq_of_letter_eq hn hm)
    (sextets_lt bytes) (sextets_lt bytes') h)

end BagOfCells.Base64
