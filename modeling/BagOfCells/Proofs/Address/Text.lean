import BagOfCells.Address.Text
import BagOfCells.Proofs.Bytes
import BagOfCells.Proofs.Cell.Made
import BagOfCells.Proofs.Text.Base64
import BagOfCells.Proofs.Text.Hex

/-!
# Addresses as texts, there and back

A user-friendly text is read as an address exactly if it is one of the two that are written for the
address with its flags, one in each alphabet. Where a text is in both alphabets it is read alike,
since a character stands for the same number in both or has no place in one of them; thirty-six
bytes leave no padding, and the tag of an address and its checksum are told by the rest of it. A raw
text is read as the address it was written for, with the flags that are usual.

## Main definitions

* `Address.friendlyBytes`: the bytes of a user-friendly text

## Main results

* `Address.ofFriendlyBytes_eq_ok_iff`: the bytes that are read as an address
* `Address.ofFriendly_eq_ok_iff`: the texts that are
* `Address.parse_printed`: all texts of an address
-/

namespace BagOfCells.Address

open Outcome

/-! ## The bytes of a user-friendly text -/

/-- The bytes of a user-friendly text. -/
def friendlyBytes (address : Address) (bounceable testOnly : Bool) : Bytes :=
  let body := address.friendlyBody bounceable testOnly
  body ++ Bytes.ofNat 2 (Crc16.checksum body).toNat

variable {address : Address} {bounceable testOnly : Bool} {bytes : Bytes}

theorem length_friendlyBytes : (address.friendlyBytes bounceable testOnly).length = 36 := by
  rw [friendlyBytes, List.length_append, Bytes.length_ofNat, friendlyBody, List.length_cons,
    List.length_cons, address.account.length_bytes]

/-- What holds of all bytes made of two halves holds of every byte. The halves keep short what is
gone through to decide it. -/
theorem forall_byte {p : UInt8 → Prop} (h : ∀ high < 16, ∀ low < 16, p (.ofNat (16 * high + low)))
    (byte : UInt8) : p byte := by
  have hbyte := byte.toNat_lt
  have hp := h (byte.toNat / 16) (by omega) (byte.toNat % 16) (by omega)
  rwa [Nat.div_add_mod, UInt8.ofNat_toNat] at hp

/-- A tag tells the flags it is made of, and no other tag tells them. -/
theorem bounceableOfTag?_eq_some_iff (tag : UInt8) (bounceable testOnly : Bool) :
    bounceableOfTag? (tag &&& 0x7f) = some bounceable ∧ decide (tag &&& 0x80 ≠ 0) = testOnly ↔
      tag = friendlyTag bounceable testOnly := by
  have hall : ∀ tag : UInt8, ∀ bounceable testOnly,
      bounceableOfTag? (tag &&& 0x7f) = some bounceable ∧ decide (tag &&& 0x80 ≠ 0) = testOnly ↔
        tag = friendlyTag bounceable testOnly :=
    forall_byte (by decide +kernel)
  exact hall tag bounceable testOnly

/-- The parts of thirty-six bytes. -/
theorem exists_parts (h : bytes.length = 36) : ∃ tag workchain account checksum,
    bytes = tag :: workchain :: (account ++ checksum) ∧ account.length = 32 ∧
      checksum.length = 2 := by
  rcases bytes with _ | ⟨tag, _ | ⟨workchain, rest⟩⟩
  · cases h
  · cases h
  · have hrest : rest.length = 34 := Nat.add_right_cancel (m := 2) h
    refine ⟨tag, workchain, rest.take 32, rest.drop 32, ?_, ?_, ?_⟩
    · rw [List.take_append_drop]
    · exact List.length_take_of_le (by omega)
    · rw [List.length_drop, hrest]

theorem ofBytes_append {account : Bytes} (h : account.length = 32) (later : Bytes) :
    Digest.ofBytes (account ++ later) = Digest.ofBytes account := by
  refine Cell.digest_eq ?_
  rw [Cell.bytes_ofBytes h]
  change (account ++ later).take 32 ++ List.replicate (32 - (account ++ later).length) 0 = account
  rw [List.take_left' h, List.length_append, h, Nat.sub_eq_zero_of_le (Nat.le_add_right ..),
    List.replicate_zero, List.append_nil]

/-- How the parts are read. -/
theorem ofFriendlyBytes_parts (tag workchain : UInt8) {account checksum : Bytes}
    (ha : account.length = 32) (hc : checksum.length = 2) :
    ofFriendlyBytes (tag :: workchain :: (account ++ checksum)) = .ok address ↔
      bounceableOfTag? (tag &&& 0x7f) = some address.bounceable ∧
      (Bytes.toNat checksum).toUInt16 = Crc16.checksum (tag :: workchain :: account) ∧
      address = ⟨workchain.toInt8, .ofBytes account, address.bounceable, tag &&& 0x80 ≠ 0⟩ := by
  have hlength : (tag :: workchain :: (account ++ checksum)).length = 36 := by
    rw [List.length_cons, List.length_cons, List.length_append, ha, hc]
  have htake : (tag :: workchain :: (account ++ checksum)).take 34 =
      tag :: workchain :: account := by
    rw [List.take_succ_cons, List.take_succ_cons, List.take_left' ha]
  have hdrop : (tag :: workchain :: (account ++ checksum)).drop 34 = checksum := by
    rw [List.drop_succ_cons, List.drop_succ_cons, List.drop_left' ha]
  have haccount : (tag :: workchain :: (account ++ checksum)).drop 2 = account ++ checksum := rfl
  unfold ofFriendlyBytes
  rw [if_neg (not_not.mpr hlength), htake, hdrop, haccount, ofBytes_append ha]
  simp only [List.getD_cons_zero, List.getD_cons_succ]
  cases htag : bounceableOfTag? (tag &&& 0x7f) with
  | none => exact ⟨nofun, fun h => nomatch h.1⟩
  | some found =>
    change (if (Bytes.toNat checksum).toUInt16 ≠ Crc16.checksum (tag :: workchain :: account)
      then .error (.checksum _ _)
      else .ok ⟨workchain.toInt8, .ofBytes account, found, tag &&& 0x80 ≠ 0⟩ :
        Except AddressError Address) = _ ↔ _
    constructor
    · intro h
      split at h
      · cases h
      · next hsum =>
        cases h
        exact ⟨rfl, not_not.mp hsum, rfl⟩
    · rintro ⟨⟨⟩, hsum, h⟩
      rw [if_neg (not_not.mpr hsum)]
      exact congrArg Except.ok h.symm

/-- The last two bytes are the checksum that they are read as. -/
theorem toUInt16_eq_iff {checksum : Bytes} (h : checksum.length = 2) {sum : UInt16} :
    (Bytes.toNat checksum).toUInt16 = sum ↔ checksum = Bytes.ofNat 2 sum.toNat := by
  have hlt := Bytes.toNat_lt checksum
  rw [h] at hlt
  have hnat : (Bytes.toNat checksum).toUInt16.toNat = Bytes.toNat checksum :=
    UInt16.toNat_ofNat_of_lt' hlt
  constructor
  · rintro rfl
    rw [hnat, ← h, Bytes.ofNat_toNat]
  · rintro rfl
    rw [Bytes.toNat_ofNat sum.toNat_lt]
    exact UInt16.ofNat_toNat

/-- **Some bytes** are read as an address exactly if they are those written for it. -/
theorem ofFriendlyBytes_eq_ok_iff : ofFriendlyBytes bytes = .ok address ↔
    bytes = address.friendlyBytes address.bounceable address.testOnly := by
  constructor
  · intro h
    have hlength : bytes.length = 36 := by
      by_contra hne
      unfold ofFriendlyBytes at h
      rw [if_pos hne] at h
      cases h
    obtain ⟨tag, workchain, account, checksum, rfl, ha, hc⟩ := exists_parts hlength
    obtain ⟨htag, hsum, haddress⟩ := (ofFriendlyBytes_parts tag workchain ha hc).mp h
    have htag : tag = friendlyTag address.bounceable address.testOnly :=
      (bounceableOfTag?_eq_some_iff ..).mp ⟨htag, (congrArg testOnly haddress).symm⟩
    have hworkchain : address.workchainByte = workchain :=
      congrArg (fun address => address.workchain.toUInt8) haddress
    have haccount : address.account.bytes = account :=
      (congrArg (fun address => address.account.bytes) haddress).trans (Cell.bytes_ofBytes ha)
    have hbody : address.friendlyBody address.bounceable address.testOnly =
        tag :: workchain :: account := by
      rw [friendlyBody, ← htag, hworkchain, haccount]
    rw [friendlyBytes, hbody, ← (toUInt16_eq_iff hc).mp hsum]
    rfl
  · rintro rfl
    have hc : (Bytes.ofNat 2 (Crc16.checksum
        (address.friendlyBody address.bounceable address.testOnly)).toNat).length = 2 :=
      Bytes.length_ofNat ..
    obtain ⟨htag, htest⟩ :=
      (bounceableOfTag?_eq_some_iff _ address.bounceable address.testOnly).mpr rfl
    refine (ofFriendlyBytes_parts _ _ address.account.length_bytes hc).mpr
      ⟨htag, (toUInt16_eq_iff hc).mpr rfl, ?_⟩
    rw [htest, Cell.digest_eq (Cell.bytes_ofBytes address.account.length_bytes)]
    rfl

/-! ## User-friendly texts -/

/-- The text of the bytes of an address, in either alphabet. -/
theorem eq_toFriendly_iff {text : String} (urlSafe : Bool) :
    text = address.toFriendly urlSafe bounceable testOnly ↔
      text.toList = Base64.encode (if urlSafe then Base64.urlSafeUnpadded else Base64.standard)
        (address.friendlyBytes bounceable testOnly) := by
  change text = String.ofList _ ↔ _
  rw [← String.toList_inj, String.toList_ofList]
  rfl

/-- **A text** is read as an address exactly if it is written for it in one of the alphabets. -/
theorem ofFriendly_eq_ok_iff {text : String} : ofFriendly text = .ok address ↔
    text = address.toFriendly true address.bounceable address.testOnly ∨
      text = address.toFriendly false address.bounceable address.testOnly := by
  rw [eq_toFriendly_iff, eq_toFriendly_iff, if_pos rfl, if_neg Bool.false_ne_true,
    ← Base64.decode?_eq_some_iff Base64.lawful_urlSafeUnpadded,
    ← Base64.decode?_eq_some_iff Base64.lawful_standard, ofFriendly]
  cases hurl : Base64.decode? Base64.urlSafeUnpadded text.toList with
  | some bytes =>
    change ofFriendlyBytes bytes = _ ↔ _
    rw [ofFriendlyBytes_eq_ok_iff, Option.some.injEq]
    refine ⟨.inl, fun h => h.elim id fun hstandard => ?_⟩
    -- the text is in both alphabets
    rw [Base64.decode?_eq_some_iff Base64.lawful_urlSafeUnpadded] at hurl
    rw [Base64.decode?_eq_some_iff Base64.lawful_standard, hurl] at hstandard
    exact Base64.eq_of_encode_eq (by rw [length_friendlyBytes]) hstandard
  | none =>
    cases Base64.decode? Base64.standard text.toList with
    | some bytes =>
      change ofFriendlyBytes bytes = _ ↔ _
      rw [ofFriendlyBytes_eq_ok_iff, Option.some.injEq]
      exact ⟨.inr, fun h => h.elim nofun id⟩
    | none => exact ⟨nofun, fun h => h.elim nofun nofun⟩

theorem not_mem_toFriendly (urlSafe : Bool) :
    ':' ∉ (address.toFriendly urlSafe bounceable testOnly).toList := by
  rw [(eq_toFriendly_iff urlSafe).mp rfl]
  cases urlSafe with
  | false => exact Base64.not_mem_encode Base64.lawful_standard rfl (by decide)
  | true => exact Base64.not_mem_encode Base64.lawful_urlSafeUnpadded rfl (by decide)

/-- **A user-friendly text** is read as the address with the flags it was written with. -/
theorem parse_toFriendly (address : Address) (urlSafe bounceable testOnly : Bool) :
    parse (address.toFriendly urlSafe bounceable testOnly) =
      .ok { address with bounceable, testOnly } := by
  have hcolon : ¬ (address.toFriendly urlSafe bounceable testOnly).toList.contains ':' = true := by
    rw [List.contains_iff_mem]
    exact not_mem_toFriendly urlSafe
  rw [parse, if_neg hcolon, ofFriendly_eq_ok_iff]
  -- the flags of the address are not those of the text
  cases urlSafe with
  | false => exact .inr rfl
  | true => exact .inl rfl

/-! ## Raw texts -/

theorem signedByte?_toString (workchain : Int8) :
    Numeral.signedByte? (toString workchain.toInt).toList = some workchain ∧
      ':' ∉ (toString workchain.toInt).toList := by
  have hall : ∀ byte : UInt8,
      Numeral.signedByte? (toString byte.toInt8.toInt).toList = some byte.toInt8 ∧
        ':' ∉ (toString byte.toInt8.toInt).toList :=
    forall_byte (by decide +kernel)
  exact hall workchain.toUInt8

theorem toList_toRaw (address : Address) : address.toRaw.toList =
    (toString address.workchain.toInt).toList ++
      ':' :: (Hex.encode address.account.bytes).toList := by
  change ((toString address.workchain.toInt ++ ":") ++ Hex.encode address.account.bytes).toList = _
  rw [String.toList_append, String.toList_append, List.append_assoc]
  rfl

/-- The digits of an account are sixty-four bytes. -/
theorem utf8ByteSize_account (account : Digest) :
    (String.ofList (Hex.encode account.bytes).toList).utf8ByteSize = 64 := by
  have hascii : ∀ c ∈ (Hex.encode account.bytes).toList, c.toNat < 128 := by
    intro c hc
    obtain ⟨value, hdigit⟩ := Hex.digit_of_mem_encode hc
    exact hdigit.ascii.1
  rw [Numeral.utf8ByteSize_of_ascii hascii, Hex.length_toList_encode, account.length_bytes]

/-- **A raw text** is read as the address with the usual flags. -/
theorem parse_toRaw (address : Address) : parse address.toRaw = .ok address.plain := by
  obtain ⟨hnumber, hcolon⟩ := signedByte?_toString address.workchain
  have hfront : ∀ c ∈ (toString address.workchain.toInt).toList, decide (c ≠ ':') = true :=
    fun c hc => decide_eq_true fun h => hcolon (h ▸ hc)
  have hcontains : address.toRaw.toList.contains ':' = true := by
    rw [List.contains_iff_mem, toList_toRaw]
    exact List.mem_append_right _ List.mem_cons_self
  have htake : address.toRaw.toList.takeWhile (· ≠ ':') =
      (toString address.workchain.toInt).toList := by
    rw [toList_toRaw, List.takeWhile_append_of_pos hfront]
    exact List.append_nil _
  have hdrop : address.toRaw.toList.dropWhile (· ≠ ':') =
      ':' :: (Hex.encode address.account.bytes).toList := by
    rw [toList_toRaw, List.dropWhile_append_of_pos hfront]
    rfl
  have haccount : Digest.ofBytes address.account.bytes = address.account :=
    Cell.digest_eq (Cell.bytes_ofBytes address.account.length_bytes)
  rw [parse, if_pos hcontains, ofRaw]
  simp only [hdrop, htake, hnumber, utf8ByteSize_account, Hex.decode?_toList_encode, haccount]
  rfl

/-! ## All texts -/

/-- **Addresses and their texts.** A user-friendly text is read as an address exactly if it is one
of the two that are written for the address with its flags. So the text of an address is read as the
address, each of its user-friendly texts as the address with the flags of that text, and its raw
text as the address with the usual flags. -/
theorem parse_printed :
    (∀ (text : String) (address : Address), ofFriendly text = .ok address ↔
      text = address.toFriendly true address.bounceable address.testOnly ∨
        text = address.toFriendly false address.bounceable address.testOnly) ∧
    ∀ address : Address,
      parse address.text = .ok address ∧
      (∀ urlSafe bounceable testOnly, parse (address.toFriendly urlSafe bounceable testOnly) =
        .ok { address with bounceable, testOnly }) ∧
      parse address.toRaw = .ok address.plain :=
  ⟨fun _ _ => ofFriendly_eq_ok_iff, fun address =>
    ⟨parse_toFriendly address true address.bounceable address.testOnly,
      parse_toFriendly address, parse_toRaw address⟩⟩

end BagOfCells.Address
