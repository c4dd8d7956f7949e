import BagOfCells.Proofs.Address.Text
import BagOfCells.Proofs.Burst

/-!
# Mistyped addresses

Two neighbouring characters of a user-friendly text are twelve neighbouring bits of the bytes it
stands for, wherever in a byte they begin, and the checksum tells bytes apart that differ in so few
places only. So a text with two neighbouring characters mistyped is no text of another address. Nor
is it a raw text: a colon among the two leaves far less than an account behind it, even if the other
one is not in ASCII.

## Main definitions

* `Mistyped text text'`: two texts that differ within two neighbouring characters

## Main results

* `Base64.flatMap_sextets`: the bits of a text are those of its bytes
* `Address.friendlyBytes_eq_of_mistyped`: two texts of addresses
* `Address.ofRaw_ne_ok_of_mistyped`: no raw text
* `Address.parse_mistyped`: what a mistyped text is read as
-/

namespace BagOfCells

/-- The second text differs from the first one within two neighbouring characters and has as many
of them. -/
def Mistyped (text text' : String) : Prop :=
  ∃ front a b rear, text.toList = front ++ a ++ rear ∧ text'.toList = front ++ b ++ rear ∧
    a.length = b.length ∧ a.length ≤ 2

namespace Base64

/-! ## Letters and bits -/

/-- **The bits of whole groups** are those of their bytes. -/
theorem flatMap_sextets {bytes : Bytes} (h : bytes.length % 3 = 0) :
    (sextets bytes).flatMap (Bits.ofNat 6) = Bits.ofBytes bytes := by
  fun_induction sextets bytes with
  | case1 a b c rest ih =>
    have hrest : rest.length % 3 = 0 := by
      simp only [List.length_cons] at h
      omega
    have hgroup : Bits.ofNat 6 (a.toNat / 4) ++ (Bits.ofNat 6 (a.toNat % 4 * 16 + b.toNat / 16) ++
          (Bits.ofNat 6 (b.toNat % 16 * 4 + c.toNat / 64) ++ Bits.ofNat 6 (c.toNat % 64))) =
        Bits.ofNat 8 a.toNat ++ (Bits.ofNat 8 b.toNat ++ Bits.ofNat 8 c.toNat) := by
      have ha := a.toNat_lt
      have hb := b.toNat_lt
      have hc := c.toNat_lt
      refine Bits.toNat_inj (by simp only [List.length_append, Bits.length_ofNat]) ?_
      simp only [Bits.toNat_append, List.length_append, Bits.length_ofNat, Bits.toNat_ofNat_mod]
      omega
    simp only [List.flatMap_cons, Bits.ofBytes_cons, ih hrest]
    simp only [← List.append_assoc] at hgroup ⊢
    rw [hgroup]
  | case2 | case3 => cases h
  | case4 => rfl

end Base64

namespace Address

open Outcome

variable {address : Address} {bounceable testOnly : Bool}

/-- The alphabet of a user-friendly text. -/
def alphabet (urlSafe : Bool) : Base64.Variant :=
  if urlSafe then Base64.urlSafeUnpadded else Base64.standard

/-- A letter of a user-friendly text stands for one number, whichever the alphabet. -/
theorem alphabet_letter_inj (urlSafe urlSafe' : Bool) :
    ∀ n < 64, ∀ m < 64, (alphabet urlSafe).letter n = (alphabet urlSafe').letter m → n = m := by
  have hsame {variant : Base64.Variant} (hv : variant.Lawful) :
      ∀ n < 64, ∀ m < 64, variant.letter n = variant.letter m → n = m := by
    intro n hn m hm h
    have hvalue := hv.value?_letter n hn
    rw [h, hv.value?_letter m hm] at hvalue
    exact (Option.some.inj hvalue).symm
  cases urlSafe <;> cases urlSafe'
  · exact hsame Base64.lawful_standard
  · exact fun n hn m hm h => (Base64.eq_of_letter_eq hm hn h.symm).symm
  · exact fun n hn m hm h => Base64.eq_of_letter_eq hn hm h
  · exact hsame Base64.lawful_urlSafeUnpadded

theorem alphabet_letter_ascii (urlSafe : Bool) :
    ∀ n < 64, ((alphabet urlSafe).letter n).toNat < 128 := by
  cases urlSafe <;> decide

/-- The letters of a user-friendly text. -/
theorem toList_toFriendly (urlSafe : Bool) :
    (address.toFriendly urlSafe bounceable testOnly).toList =
      (Base64.sextets (address.friendlyBytes bounceable testOnly)).map
        (alphabet urlSafe).letter := by
  rw [(eq_toFriendly_iff urlSafe).mp rfl]
  cases urlSafe with
  | false => exact Base64.encode_standard (by rw [length_friendlyBytes])
  | true => rfl

/-! ## Texts of addresses -/

/-- The bytes of a user-friendly text bring the checksum back to zero. -/
theorem foldl_friendlyBytes (address : Address) (bounceable testOnly : Bool) :
    (Bits.ofBytes (address.friendlyBytes bounceable testOnly)).foldl Crc16.feed Crc16.init = 0 := by
  rw [← Crc16.update_eq]
  exact Crc16.residue _

/-- Texts of addresses that differ within two characters do so within two six-bit groups. -/
theorem exists_sextets_of_mistyped {address' : Address} {bounceable' testOnly' : Bool}
    {urlSafe urlSafe' : Bool} (h : Mistyped (address.toFriendly urlSafe bounceable testOnly)
      (address'.toFriendly urlSafe' bounceable' testOnly')) :
    ∃ front a b rear,
      Base64.sextets (address.friendlyBytes bounceable testOnly) = front ++ a ++ rear ∧
      Base64.sextets (address'.friendlyBytes bounceable' testOnly') = front ++ b ++ rear ∧
      a.length = b.length ∧ a.length ≤ 2 := by
  obtain ⟨front, a, b, rear, ha, hb, hl, htwo⟩ := h
  have hlt := Base64.sextets_lt (address.friendlyBytes bounceable testOnly)
  have hlt' := Base64.sextets_lt (address'.friendlyBytes bounceable' testOnly')
  rw [toList_toFriendly] at ha hb
  -- the groups are cut where the letters are
  obtain ⟨gFrontA, gRear, hg, hga, hgRear⟩ := List.map_eq_append_iff.mp ha
  obtain ⟨gFront, gA, rfl, hgFront, rfl⟩ := List.map_eq_append_iff.mp hga
  obtain ⟨gFrontB, gRear', hg', hgb, hgRear'⟩ := List.map_eq_append_iff.mp hb
  obtain ⟨gFront', gB, rfl, hgFront', rfl⟩ := List.map_eq_append_iff.mp hgb
  rw [hg] at hlt
  rw [hg'] at hlt'
  simp only [List.forall_mem_append] at hlt hlt'
  -- and letters that agree stand for the same groups
  have hinj := alphabet_letter_inj urlSafe urlSafe'
  obtain rfl : gFront = gFront' := Base64.eq_of_map_letter_eq hinj hlt.1.1 hlt'.1.1
    (hgFront.trans hgFront'.symm)
  obtain rfl : gRear = gRear' := Base64.eq_of_map_letter_eq hinj hlt.2 hlt'.2
    (hgRear.trans hgRear'.symm)
  rw [List.length_map, List.length_map] at hl
  rw [List.length_map] at htwo
  exact ⟨gFront, gA, gB, gRear, hg, hg', hl, htwo⟩

/-- **Texts of addresses** that differ within two neighbouring characters have the same bytes. -/
theorem friendlyBytes_eq_of_mistyped {address' : Address} {bounceable' testOnly' : Bool}
    {urlSafe urlSafe' : Bool} (h : Mistyped (address.toFriendly urlSafe bounceable testOnly)
      (address'.toFriendly urlSafe' bounceable' testOnly')) :
    address.friendlyBytes bounceable testOnly = address'.friendlyBytes bounceable' testOnly' := by
  obtain ⟨front, a, b, rear, ha, hb, hl, htwo⟩ := exists_sextets_of_mistyped h
  have hbits (address : Address) (bounceable testOnly : Bool) :
      (Base64.sextets (address.friendlyBytes bounceable testOnly)).flatMap (Bits.ofNat 6) =
        Bits.ofBytes (address.friendlyBytes bounceable testOnly) :=
    Base64.flatMap_sextets (by rw [length_friendlyBytes])
  have hwidth (groups : List Nat) : (groups.flatMap (Bits.ofNat 6)).length = 6 * groups.length := by
    simp [List.length_flatMap, Nat.mul_comm]
  have hsame : (front ++ a ++ rear).flatMap (Bits.ofNat 6) =
      (front ++ b ++ rear).flatMap (Bits.ofNat 6) := by
    have hstate := (foldl_friendlyBytes address bounceable testOnly).trans
      (foldl_friendlyBytes address' bounceable' testOnly').symm
    rw [← hbits, ← hbits, ha, hb] at hstate
    simp only [List.flatMap_append] at hstate ⊢
    rw [Crc16.eq_of_burst (by rw [hwidth, hwidth, hl]) (by rw [hwidth]; omega) hstate]
  rw [← ha, ← hb, hbits, hbits] at hsame
  exact Bits.ofBytes_inj hsame

/-! ## Raw texts -/

/-- The account of a raw text is at its end and has sixty-four bytes. -/
theorem exists_account_of_ofRaw {text : String} (h : ofRaw text = .ok address) :
    ∃ account, account <:+ text.toList ∧ (String.ofList account).utf8ByteSize = 64 := by
  rw [ofRaw] at h
  cases hdrop : text.toList.dropWhile (· ≠ ':') with
  | nil =>
    simp only [hdrop] at h
    cases h
  | cons colon account =>
    simp only [hdrop] at h
    have hsuffix : account <:+ text.toList :=
      (List.suffix_cons ..).trans (hdrop ▸ List.dropWhile_suffix _)
    refine ⟨account, hsuffix, ?_⟩
    by_contra hsize
    split at h
    · obtain ⟨_, -, h⟩ := bind_eq_ok_iff.mp h
      rw [if_pos hsize] at h
      cases h
    · cases h

theorem utf8ByteSize_le (text : List Char) :
    (String.ofList text).utf8ByteSize ≤ 4 * text.length := by
  induction text with
  | nil => exact Nat.zero_le _
  | cons c text ih =>
    have hc := c.utf8Size_le_four
    rw [String.ofList_cons, String.utf8ByteSize_append, String.utf8ByteSize_singleton,
      List.length_cons]
    omega

/-- **A mistyped text** is no raw text: it has too few bytes for an account. -/
theorem ofRaw_ne_ok_of_mistyped {urlSafe : Bool} {text : String}
    (h : Mistyped (address.toFriendly urlSafe bounceable testOnly) text) (found : Address) :
    ofRaw text ≠ .ok found := by
  intro hraw
  obtain ⟨front, a, b, rear, ha, hb, hl, htwo⟩ := h
  obtain ⟨account, ⟨before, haccount⟩, hsize⟩ := exists_account_of_ofRaw hraw
  have hlength : front.length + a.length + rear.length = 48 := by
    rw [← List.length_append, ← List.length_append, ← ha, toList_toFriendly, List.length_map,
      Base64.length_sextets, length_friendlyBytes]
  have hascii : ∀ c ∈ front ++ a ++ rear, c.toNat < 128 := by
    rw [← ha, toList_toFriendly]
    intro c hc
    obtain ⟨n, hn, rfl⟩ := List.mem_map.mp hc
    exact alphabet_letter_ascii urlSafe n (Base64.sextets_lt _ n hn)
  simp only [List.forall_mem_append] at hascii
  have htotal := congrArg (fun text => (String.ofList text).utf8ByteSize) (haccount.trans hb)
  simp only [String.ofList_append, String.utf8ByteSize_append,
    Numeral.utf8ByteSize_of_ascii hascii.1.1, Numeral.utf8ByteSize_of_ascii hascii.2, hsize]
    at htotal
  have hmid := utf8ByteSize_le b
  omega

/-! ## Mistyped texts -/

/-- **Mistyped addresses are caught.** A text that differs within two neighbouring characters from a
user-friendly text of an address, whatever these characters are, is refused, unless it is read just
as that text; and then it is the text of the same address with the same flags in one of the two
alphabets. -/
theorem parse_mistyped {urlSafe : Bool} {text : String}
    (h : Mistyped (address.toFriendly urlSafe bounceable testOnly) text) (found : Address) :
    parse text = .ok found ↔
      parse (address.toFriendly urlSafe bounceable testOnly) = .ok found ∧
        ∃ urlSafe', text = address.toFriendly urlSafe' bounceable testOnly := by
  rw [parse_toFriendly]
  constructor
  · intro hparse
    rw [parse] at hparse
    split at hparse
    · exact absurd hparse (ofRaw_ne_ok_of_mistyped h found)
    · obtain ⟨urlSafe', rfl⟩ : ∃ urlSafe',
          text = found.toFriendly urlSafe' found.bounceable found.testOnly :=
        (ofFriendly_eq_ok_iff.mp hparse).elim (fun htext => ⟨true, htext⟩)
          fun htext => ⟨false, htext⟩
      have hbytes := friendlyBytes_eq_of_mistyped h
      have hread := ofFriendlyBytes_eq_ok_iff.mpr hbytes
      have hown : ofFriendlyBytes (address.friendlyBytes bounceable testOnly) =
          .ok { address with bounceable, testOnly } := ofFriendlyBytes_eq_ok_iff.mpr rfl
      obtain rfl := Except.ok.inj (hown.symm.trans hread)
      exact ⟨rfl, urlSafe', rfl⟩
  · rintro ⟨hfound, urlSafe', rfl⟩
    rwa [parse_toFriendly]

/-- The text of an account of zeros, whose last two characters have changed places. -/
theorem parse_mistyped_swapped :
    Mistyped ((ofParts 0 .zero).toFriendly true true false)
      "EQAAAAAAAAAAAAAAAAAAAAAAAAAAAAAAAAAAAAAAAAAAAMc9" ∧
    ∀ found, parse "EQAAAAAAAAAAAAAAAAAAAAAAAAAAAAAAAAAAAAAAAAAAAMc9" ≠ .ok found := by
  have hswapped : Mistyped ((ofParts 0 .zero).toFriendly true true false)
      "EQAAAAAAAAAAAAAAAAAAAAAAAAAAAAAAAAAAAAAAAAAAAMc9" :=
    ⟨"EQAAAAAAAAAAAAAAAAAAAAAAAAAAAAAAAAAAAAAAAAAAAM".toList, ['9', 'c'], ['c', '9'], [],
      by decide +kernel, by decide +kernel, rfl, by decide⟩
  refine ⟨hswapped, fun found hparse => ?_⟩
  obtain ⟨-, urlSafe, htext⟩ := (parse_mistyped hswapped found).mp hparse
  exact absurd htext (by revert urlSafe; decide +kernel)

end Address

end BagOfCells
