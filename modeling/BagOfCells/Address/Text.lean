import BagOfCells.Address.Basic
import BagOfCells.Checksum
import BagOfCells.Text.Base64
import BagOfCells.Text.Hex

/-!
# The texts of an address

An internal address has a raw text, the workchain, a colon and the account in hexadecimal digits,
and a user-friendly one: a tag that carries the flags, the workchain, the account and a checksum in
base64. The user-friendly text is written in the standard alphabet or in the one that is safe in a
URL; in either the thirty-six bytes fill whole groups, so there is no padding. A text with a colon
is read as a raw one, any other as a user-friendly one.

## Main definitions

* `Address.toRaw`, `Address.toFriendly`, `Address.text`: writing
* `Address.ofRaw`, `Address.ofFriendly`, `Address.parse`: reading
* `AddressError`: why a text is no address
* `ExternalAddress.text`, `ExternalAddress.ofHex`
-/

namespace BagOfCells

/-- Why a text is no address. -/
inductive AddressError where
  /-- The text is in neither base64 alphabet. -/
  | base64
  /-- The account is not in hexadecimal digits. -/
  | hex
  /-- The workchain is no number from -128 to 127. -/
  | workchain
  | rawForm (text : String)
  /-- The account of a raw text has other than sixty-four characters. -/
  | accountLength
  /-- A user-friendly text has other than thirty-six bytes. -/
  | length (bytes : Nat)
  /-- The tag of a user-friendly text is unknown. -/
  | tag (tag : UInt8)
  /-- The checksum of a user-friendly text is wrong. -/
  | checksum (expected actual : UInt16)
  deriving DecidableEq

/-- The text of an address error. -/
def AddressError.message : AddressError → String
  | base64 => "Invalid base64"
  | hex => "Invalid hex"
  | workchain => "Invalid workchain"
  | rawForm text => "Invalid raw address format: " ++ text
  | accountLength => "Hash part must be 64 hex characters"
  | length bytes => s!"Invalid base64 address length: {bytes}"
  | tag byte => "Invalid address tag 0x" ++ Hex.fixed 2 byte.toNat
  | checksum expected actual =>
    "Invalid address CRC: expected 0x" ++ Hex.fixed 4 expected.toNat ++ ", got 0x" ++
      Hex.fixed 4 actual.toNat

namespace Address

/-! ## Writing -/

def toRaw (address : Address) : String :=
  s!"{address.workchain.toInt}:" ++ Hex.encode address.account.bytes

/-- The tag of a user-friendly text with the given flags. -/
def friendlyTag (bounceable testOnly : Bool) : UInt8 :=
  (if bounceable then 0x11 else 0x51) + (if testOnly then 0x80 else 0)

/-- The bytes of a user-friendly text in front of the checksum. -/
def friendlyBody (address : Address) (bounceable testOnly : Bool) : Bytes :=
  friendlyTag bounceable testOnly :: address.workchainByte :: address.account.bytes

/-- The user-friendly text with the given flags. -/
def toFriendly (address : Address) (urlSafe bounceable testOnly : Bool) : String :=
  let body := address.friendlyBody bounceable testOnly
  String.ofList <| Base64.encode (if urlSafe then Base64.urlSafeUnpadded else Base64.standard)
    (body ++ Bytes.ofNat 2 (Crc16.checksum body).toNat)

/-- The text of an address: user-friendly, safe in a URL, with its own flags. -/
def text (address : Address) : String :=
  address.toFriendly true address.bounceable address.testOnly

/-! ## Reading -/

/-- The address of a raw text. -/
def ofRaw (text : String) : Except AddressError Address :=
  let chars := text.toList
  match chars.dropWhile (· ≠ ':') with
  | [] => .error (.rawForm text)
  | _ :: account => do
    let workchain ← match Numeral.signedByte? (chars.takeWhile (· ≠ ':')) with
      | some workchain => .ok workchain
      | none => .error .workchain
    -- the length counts bytes, so a character outside ASCII counts for more than one
    if (String.ofList account).utf8ByteSize ≠ 64 then throw .accountLength
    match Hex.decode? account with
    | some bytes => return ofParts workchain (.ofBytes bytes)
    | none => throw .hex

/-- Whether a tag is that of an address messages to which bounce, its test bit aside. -/
def bounceableOfTag? (tag : UInt8) : Option Bool :=
  if tag = 0x11 then some true else if tag = 0x51 then some false else none

/-- The address of the bytes of a user-friendly text. -/
def ofFriendlyBytes (bytes : Bytes) : Except AddressError Address := do
  if bytes.length ≠ 36 then throw (.length bytes.length)
  -- the tag, the workchain, thirty-two bytes of account, two bytes of checksum
  let tag := bytes.getD 0 0
  let bounceable ← match bounceableOfTag? (tag &&& 0x7f) with
    | some bounceable => .ok bounceable
    | none => .error (.tag (tag &&& 0x7f))
  let expected := (Bytes.toNat (bytes.drop 34)).toUInt16
  let actual := Crc16.checksum (bytes.take 34)
  if expected ≠ actual then throw (.checksum expected actual)
  return ⟨(bytes.getD 1 0).toInt8, .ofBytes (bytes.drop 2), bounceable, tag &&& 0x80 ≠ 0⟩

/-- The address of a user-friendly text in either alphabet. -/
def ofFriendly (text : String) : Except AddressError Address :=
  match Base64.decode? Base64.urlSafeUnpadded text.toList <|>
      Base64.decode? Base64.standard text.toList with
  | some bytes => ofFriendlyBytes bytes
  | none => .error .base64

/-- The address of a text. -/
def parse (text : String) : Except AddressError Address :=
  if text.toList.contains ':' then ofRaw text else ofFriendly text

end Address

namespace ExternalAddress

/-- The text of an external address. -/
def text (address : ExternalAddress) : String :=
  if address.length = 0 then "ExternalAddress<null>"
  else s!"ExternalAddress<{address.length}:" ++ Hex.encode address.data ++ ">"

/-- The external address of a text of hexadecimal digits. -/
def ofHex (text : String) : Except AddressError ExternalAddress :=
  match Hex.decode? text.toList with
  | some bytes => .ok (ofBytes bytes)
  | none => .error .hex

end ExternalAddress

end BagOfCells
