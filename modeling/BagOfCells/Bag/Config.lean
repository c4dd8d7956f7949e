import BagOfCells.Json.Scan

/-!
# Configuration of bags

What a decoder accepts and what an encoder adds. A configuration is read from a JSON object, whose
missing fields take their defaults and whose unknown fields are ignored, or from a JSON list of its
fields in order, of which the last ones may be missing.

## Main definitions

* `Bag.Flags`: the optional parts of a bag
* `Bag.Config`, `Bag.Config.flags`: limits of the decoder and flags of the encoder
* `Bag.Config.ofJson`, `Bag.Config.ofFile`, `Bag.Config.toJson`: reading and writing
* `Bag.ConfigError`: why there is no configuration
-/

namespace BagOfCells.Bag

/-- The optional parts of a bag. -/
structure Flags where
  /-- Whether the ends of all cells are listed. -/
  hasIndex : Bool := false
  hasCrc : Bool := false
  deriving DecidableEq

/-- The limits of the decoder and the flags of the encoder. -/
structure Config where
  maxDepth : Nat := 1024
  maxCells : Nat := 1048576
  maxRoots : Nat := 16
  verifyCrc : Bool := true
  writeCrc : Bool := false
  writeIndex : Bool := false
  deriving DecidableEq

/-- Why there is no configuration. -/
inductive ConfigError where
  /-- The text is not that of a configuration. -/
  | invalid
  | unreadable (path : String)
  deriving DecidableEq

/-- The text of a configuration error. -/
def ConfigError.message : ConfigError → String
  | invalid => "invalid BoC config"
  | unreadable path => "failed to read BoC config " ++ path

namespace Config

/-- The flags of the encoder. -/
def flags (config : Config) : Flags := ⟨config.writeIndex, config.writeCrc⟩

/-! ## Fields -/

/-- The fields of a configuration. -/
inductive Field where
  | maxDepth | maxCells | maxRoots | verifyCrc | writeCrc | writeIndex
  deriving DecidableEq

/-- The fields in the order of a list. -/
def Field.all : List Field := [maxDepth, maxCells, maxRoots, verifyCrc, writeCrc, writeIndex]

def Field.name : Field → String
  | maxDepth => "max_depth"
  | maxCells => "max_cells"
  | maxRoots => "max_roots"
  | verifyCrc => "verify_crc"
  | writeCrc => "write_crc32c"
  | writeIndex => "write_index"

def Field.ofName? (text : String) : Option Field := Field.all.find? (·.name == text)

/-- Takes the value of a field from the front of a text. -/
def Field.scan? (field : Field) (config : Config) (text : List Char) :
    Option (Config × List Char) :=
  match field with
  | maxDepth => (Json.word? text).map fun (n, rest) => ({ config with maxDepth := n }, rest)
  | maxCells => (Json.word? text).map fun (n, rest) => ({ config with maxCells := n }, rest)
  | maxRoots => (Json.word? text).map fun (n, rest) => ({ config with maxRoots := n }, rest)
  | verifyCrc => (Json.bool? text).map fun (b, rest) => ({ config with verifyCrc := b }, rest)
  | writeCrc => (Json.bool? text).map fun (b, rest) => ({ config with writeCrc := b }, rest)
  | writeIndex => (Json.bool? text).map fun (b, rest) => ({ config with writeIndex := b }, rest)

/-- The text of the value of a field. -/
def Field.text (config : Config) : Field → String
  | maxDepth => toString config.maxDepth
  | maxCells => toString config.maxCells
  | maxRoots => toString config.maxRoots
  | verifyCrc => toString config.verifyCrc
  | writeCrc => toString config.writeCrc
  | writeIndex => toString config.writeIndex

/-! ## Reading and writing -/

/-- Takes the members of an object, up to its closing brace; `fuel` bounds their number and `seen`
are the fields that have had their value. -/
def members? : (fuel : Nat) → (seen : List Field) → Config → List Char →
    Option (Config × List Char)
  | 0, _, _, _ => none
  | fuel + 1, seen, config, text => do
    let (name, rest) ← Json.string? (Json.blanks text)
    let rest := Json.blanks (← Json.token? ':' rest)
    let (seen, config, rest) ← match Field.ofName? name with
      | none => (Json.skipValue? rest).map (seen, config, ·)
      | some field =>
        if seen.contains field then none
        else (field.scan? config rest).map fun (config, rest) => (field :: seen, config, rest)
    match Json.token? ',' rest with
    | some rest => members? fuel seen config rest
    | none => (Json.token? '\x7d' rest).map (config, ·)

/-- Takes the items of a list, up to its closing bracket, one for each field. -/
def items? : List Field → Config → List Char → Option (Config × List Char)
  | [], _, _ => none
  | field :: fields, config, text => do
    let (config, rest) ← field.scan? config (Json.blanks text)
    match Json.token? ',' rest with
    | some rest => items? fields config rest
    | none => (Json.token? ']' rest).map (config, ·)

/-- Takes a configuration from the front of a text. -/
def scan? (text : List Char) : Option (Config × List Char) :=
  match Json.blanks text with
  | '\x7b' :: rest =>
    match Json.token? '\x7d' rest with
    | some rest => some ({}, rest)
    | none => members? rest.length [] {} rest
  | '[' :: rest =>
    match Json.token? ']' rest with
    | some rest => some ({}, rest)
    | none => items? Field.all {} rest
  | _ => none

/-- The configuration of a JSON text. -/
def ofJson (text : String) : Except ConfigError Config :=
  match scan? text.toList with
  | some (config, rest) => if (Json.blanks rest).isEmpty then .ok config else .error .invalid
  | none => .error .invalid

/-- The configuration of a file, given its contents if there is one. -/
def ofFile (path : String) : (contents : Option String) → Except ConfigError Config
  | some text => ofJson text
  | none => .error (.unreadable path)

/-- The JSON text of a configuration, without blanks. -/
def toJson (config : Config) : String :=
  let members := Field.all.map fun field => "\"" ++ field.name ++ "\":" ++ field.text config
  "\x7b" ++ ",".intercalate members ++ "\x7d"

end Config

end BagOfCells.Bag
