import BagOfCells.Address.Basic
import BagOfCells.Address.Text
import BagOfCells.Address.Wire
import BagOfCells.Bag.Config
import BagOfCells.Bag.Decode
import BagOfCells.Bag.Encode
import BagOfCells.Bag.Header
import BagOfCells.Bag.Order
import BagOfCells.Bits
import BagOfCells.Builder.Basic
import BagOfCells.Builder.Integer
import BagOfCells.Bytes
import BagOfCells.Cell.Basic
import BagOfCells.Cell.Kind
import BagOfCells.Cell.Layout
import BagOfCells.Cell.LevelMask
import BagOfCells.Cell.Make
import BagOfCells.Cell.Picture
import BagOfCells.Checked
import BagOfCells.Checksum
import BagOfCells.Codec.Basic
import BagOfCells.Codec.Either
import BagOfCells.Codec.Jetton
import BagOfCells.Codec.Shape
import BagOfCells.Codec.StateInit
import BagOfCells.Dictionary.Basic
import BagOfCells.Dictionary.Key
import BagOfCells.Dictionary.Label
import BagOfCells.Dictionary.Trie
import BagOfCells.Error
import BagOfCells.Json.Scan
import BagOfCells.Proofs.Bag.Grammar
import BagOfCells.Proofs.Bag.Order
import BagOfCells.Proofs.Bag.ReadBack
import BagOfCells.Proofs.Bag.Reader
import BagOfCells.Proofs.Bag.RoundTrip
import BagOfCells.Proofs.Bag.Safety
import BagOfCells.Proofs.Bag.Written
import BagOfCells.Proofs.Bits
import BagOfCells.Proofs.Bytes
import BagOfCells.Proofs.Cell.Collision
import BagOfCells.Proofs.Cell.Layout
import BagOfCells.Proofs.Cell.LevelHash
import BagOfCells.Proofs.Cell.LevelMask
import BagOfCells.Proofs.Cell.Made
import BagOfCells.Proofs.Outcome
import BagOfCells.Schema.Load
import BagOfCells.Schema.Store
import BagOfCells.Schema.Tag
import BagOfCells.Schema.Value
import BagOfCells.Sha256
import BagOfCells.Slice.Basic
import BagOfCells.Slice.Integer
import BagOfCells.Snake
import BagOfCells.Text.Base64
import BagOfCells.Text.Blank
import BagOfCells.Text.Hex
import BagOfCells.Text.Numeral
import BagOfCells.Proofs.Cell.Identity
import BagOfCells.Proofs.Cell.Path
import BagOfCells.Proofs.Cell.Pruning
import BagOfCells.Proofs.Cell.MerkleProof
import BagOfCells.Proofs.Number
import BagOfCells.Proofs.Wire.Law
import BagOfCells.Proofs.Wire.Values
import BagOfCells.Proofs.Dictionary.Label
import BagOfCells.Proofs.Dictionary.Trie
import BagOfCells.Proofs.Dictionary.ReadBack
import BagOfCells.Proofs.Schema.Built
import BagOfCells.Proofs.Schema.RoundTrip
import BagOfCells.Proofs.Dictionary.Loaded
import BagOfCells.Proofs.Schema.Reencode
import BagOfCells.Proofs.Dictionary.Grammar
import BagOfCells.Proofs.Dictionary.History
import BagOfCells.Proofs.Dictionary.Capacity
import BagOfCells.Proofs.Codec.RoundTrip
import BagOfCells.Proofs.Codec.Transfer
import BagOfCells.Proofs.Codec.Contract
import BagOfCells.Builder.Call
import BagOfCells.Proofs.Builder.Packing
import BagOfCells.Proofs.Builder.Packed
import BagOfCells.Proofs.Builder.Encoding
import BagOfCells.Proofs.Builder.History
import BagOfCells.Proofs.Checksum
import BagOfCells.Proofs.Bag.Fields
import BagOfCells.Proofs.Bag.Damage
import BagOfCells.Proofs.Builder.Unchanged
import BagOfCells.Builder.Packed
import BagOfCells.Slice.Packed
import BagOfCells.Slice.Store
import BagOfCells.Slice.Call
import BagOfCells.Proofs.Slice.Packing
import BagOfCells.Proofs.Slice.Position
import BagOfCells.Proofs.Slice.Packed
import BagOfCells.Proofs.Slice.Exact
import BagOfCells.Proofs.Wire.Sequence
import BagOfCells.Proofs.Cell.Height
import BagOfCells.Proofs.Bag.Parsing
import BagOfCells.Proofs.Bag.Source
import BagOfCells.Proofs.Bag.Exact
import BagOfCells.Proofs.Bag.Accepted
import BagOfCells.Proofs.Bag.Flavours
import BagOfCells.Proofs.Wire.External
import BagOfCells.Proofs.Slice.Extreme
import BagOfCells.Proofs.Bag.Canonical
import BagOfCells.Proofs.Bag.Delimited
import BagOfCells.Proofs.Bag.Traversal
import BagOfCells.Proofs.Dictionary.Reencode
import BagOfCells.Proofs.Dictionary.Split
import BagOfCells.Proofs.Wire.Words
import BagOfCells.Proofs.Wire.Snake
import BagOfCells.Proofs.Text.Blank
import BagOfCells.Proofs.Text.Numeral
import BagOfCells.Proofs.Text.Base64
import BagOfCells.Proofs.Text.Hex
import BagOfCells.Proofs.Schema.Tag
import BagOfCells.Proofs.Address.Text
import BagOfCells.Proofs.Cell.Covering
import BagOfCells.Proofs.Codec.Placement
import BagOfCells.Proofs.Slice.Copy
import BagOfCells.Proofs.Burst
import BagOfCells.Proofs.Address.Typo
import BagOfCells.Dictionary.Packed
import BagOfCells.Proofs.Dictionary.LabelForm
import BagOfCells.Proofs.Dictionary.KeyForm
import BagOfCells.Proofs.Codec.Comment
