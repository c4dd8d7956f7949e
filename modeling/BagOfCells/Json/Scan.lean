import BagOfCells.Text.Numeral

/-!
# Scanning JSON

Each scanner takes something from the front of a text and returns what is left, or nothing if the
text does not begin with it. Numbers, booleans and strings are scanned for their value; any value
can be passed over. Strings that are passed over may name lone surrogates, strings that are read may
not.

## Main definitions

* `Json.blanks`, `Json.literal?`: blanks and fixed texts
* `Json.word?`, `Json.bool?`, `Json.string?`: values
* `Json.skipValue?`: any value, passed over
-/

namespace BagOfCells.Json

/-- Blanks between tokens: space, newline, tab and carriage return. -/
def isBlank (c : Char) : Bool := c == ' ' || c == '\n' || c == '\t' || c == '\r'

/-- A text without the blanks in front. -/
def blanks (text : List Char) : List Char := text.dropWhile isBlank

/-- What follows a fixed text. -/
def literal? : (expected text : List Char) → Option (List Char)
  | [], text => some text
  | _ :: _, [] => none
  | c :: expected, d :: text => if c = d then literal? expected text else none

/-- What follows a fixed text behind blanks. -/
def token? (c : Char) (text : List Char) : Option (List Char) := literal? [c] (blanks text)

/-! ## Numbers -/

/-- The digits in front of a text. -/
def digits (text : List Char) : List Char × List Char := text.span Char.isDigit

/-- The digits of a whole part, which has no leading zero, and what follows it. -/
def whole? (text : List Char) : Option (List Char × List Char) :=
  match digits text with
  | ([], _) => none
  | (['0'], rest) => some (['0'], rest)
  | ('0' :: _, _) => none
  | parts => some parts

/-- A number without sign, fraction and exponent, below `2 ^ 64`. -/
def word? (text : List Char) : Option (Nat × List Char) := do
  let (number, rest) ← whole? text
  match rest with
  -- a number with a fraction or an exponent is no count, whatever its value
  | '.' :: _ | 'e' :: _ | 'E' :: _ => none
  | _ =>
    let value ← Numeral.value? 10 number
    if value < Bits.bound 64 then some (value, rest) else none

/-- What follows an optional fraction. -/
def skipFraction? : List Char → Option (List Char)
  | '.' :: rest => match digits rest with
    | ([], _) => none
    | (_, rest) => some rest
  | rest => some rest

/-- What follows an optional exponent. -/
def skipExponent? (text : List Char) : Option (List Char) :=
  match text with
  | 'e' :: rest | 'E' :: rest =>
    let rest := match rest with
      | '+' :: rest | '-' :: rest => rest
      | rest => rest
    match digits rest with
    | ([], _) => none
    | (_, rest) => some rest
  | rest => some rest

/-- What follows a number. -/
def skipNumber? (text : List Char) : Option (List Char) := do
  let text := match text with
    | '-' :: rest => rest
    | rest => rest
  let (_, rest) ← whole? text
  skipExponent? (← skipFraction? rest)

/-! ## Booleans -/

def bool? (text : List Char) : Option (Bool × List Char) :=
  match literal? "true".toList text with
  | some rest => some (true, rest)
  | none => (literal? "false".toList text).map (false, ·)

/-! ## Strings -/

/-- The character an escape other than a code unit stands for. -/
def escape? : Char → Option Char
  | '"' => some '"'
  | '\\' => some '\\'
  | '/' => some '/'
  | 'b' => some '\x08'
  | 'f' => some '\x0c'
  | 'n' => some '\n'
  | 'r' => some '\r'
  | 't' => some '\t'
  | _ => none

/-- A code unit of four hexadecimal digits. -/
def codeUnit? : List Char → Option (Nat × List Char)
  | a :: b :: c :: d :: rest => (Numeral.value? 16 [a, b, c, d]).map (·, rest)
  | _ => none

/-- The character of two code units that form a pair of surrogates. -/
def surrogates? (high low : Nat) : Option Char :=
  if 0xdc00 ≤ low ∧ low ≤ 0xdfff then
    some (Char.ofNat (0x10000 + (high - 0xd800) * 0x400 + (low - 0xdc00)))
  else none

/-- A character written as one code unit or, outside the basic plane, as two. -/
def unicode? (text : List Char) : Option (Char × List Char) := do
  let (unit, rest) ← codeUnit? text
  if 0xdc00 ≤ unit ∧ unit ≤ 0xdfff then none
  else if 0xd800 ≤ unit ∧ unit ≤ 0xdbff then
    let (low, rest) ← codeUnit? (← literal? ['\\', 'u'] rest)
    return (← surrogates? unit low, rest)
  else return (Char.ofNat unit, rest)

/-- The rest of a string and what follows its closing quote; `fuel` bounds its characters. -/
def stringBody? : (fuel : Nat) → List Char → Option (List Char × List Char)
  | 0, _ => none
  | _, [] => none
  | fuel + 1, c :: rest =>
    if c = '"' then some ([], rest)
    else if c = '\\' then
      match rest with
      | 'u' :: rest => do
        let (c, rest) ← unicode? rest
        let (body, rest) ← stringBody? fuel rest
        return (c :: body, rest)
      | c :: rest => do
        let c ← escape? c
        let (body, rest) ← stringBody? fuel rest
        return (c :: body, rest)
      | [] => none
    else if c.toNat < 0x20 then none
    else do
      let (body, rest) ← stringBody? fuel rest
      return (c :: body, rest)

/-- A string. -/
def string? (text : List Char) : Option (String × List Char) := do
  let text ← literal? ['"'] text
  let (body, rest) ← stringBody? (text.length + 1) text
  return (String.ofList body, rest)

/-- What follows the closing quote of a string; `fuel` bounds its characters. -/
def skipStringBody? : (fuel : Nat) → List Char → Option (List Char)
  | 0, _ => none
  | _, [] => none
  | fuel + 1, c :: rest =>
    if c = '"' then some rest
    else if c = '\\' then
      match rest with
      | 'u' :: rest => do
        let (_, rest) ← codeUnit? rest
        skipStringBody? fuel rest
      | c :: rest => do
        let _ ← escape? c
        skipStringBody? fuel rest
      | [] => none
    else if c.toNat < 0x20 then none
    else skipStringBody? fuel rest

/-- What follows a string. -/
def skipString? (text : List Char) : Option (List Char) := do
  let text ← literal? ['"'] text
  skipStringBody? (text.length + 1) text

/-! ## Any value -/

mutual
/-- What follows a value; `fuel` bounds its tokens. -/
def skip? : (fuel : Nat) → List Char → Option (List Char)
  | 0, _ => none
  | fuel + 1, text =>
    match blanks text with
    | '"' :: rest => skipString? ('"' :: rest)
    | '[' :: rest =>
      match token? ']' rest with
      | some rest => some rest
      | none => skipItems? fuel rest
    | '\x7b' :: rest =>
      match token? '\x7d' rest with
      | some rest => some rest
      | none => skipMembers? fuel rest
    | 'n' :: rest => literal? "ull".toList rest
    | 't' :: rest => literal? "rue".toList rest
    | 'f' :: rest => literal? "alse".toList rest
    | text => skipNumber? text

/-- What follows the items of a list. -/
def skipItems? : (fuel : Nat) → List Char → Option (List Char)
  | 0, _ => none
  | fuel + 1, text => do
    let rest ← skip? fuel text
    match token? ',' rest with
    | some rest => skipItems? fuel rest
    | none => token? ']' rest

/-- What follows the members of an object. -/
def skipMembers? : (fuel : Nat) → List Char → Option (List Char)
  | 0, _ => none
  | fuel + 1, text => do
    let rest ← token? ':' (← skipString? (blanks text))
    let rest ← skip? fuel rest
    match token? ',' rest with
    | some rest => skipMembers? fuel rest
    | none => token? '\x7d' rest
end

/-- What follows a value of any kind. -/
def skipValue? (text : List Char) : Option (List Char) := skip? (2 * text.length + 2) text

end BagOfCells.Json
