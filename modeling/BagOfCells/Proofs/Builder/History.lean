import BagOfCells.Proofs.Builder.Encoding

/-!
# What a builder holds

Whatever calls a builder has seen, failed ones among them, its bytes are the packed form of a bit
string: that which the same calls leave of a builder that keeps its bits as they are. One call keeps
this, so all calls do, one after the other; a call that stores what another builder holds rests on
the calls that one has seen. So what is known of stores on bits holds of the bytes.

## Main definitions

* `StoreCall.store`, `StoreCall.storeAll`: calls on a builder that does not pack its bits

## Main results

* `StoreCall.performs`, `StoreCall.runAll_pack`: one call, and calls one after the other
* `StoreCall.encodes`: what a call puts down
* `StoreCall.history_refines`: a builder refines its bits and references
-/

namespace BagOfCells

open Outcome

namespace StoreCall

open Builder PackedBuilder

/-! ## Bytes and bits -/

mutual

/-- What a call does to a builder that does not pack its bits. -/
def store : StoreCall → Store
  | .bit value => Builder.storeBit value
  | .bits data count => Builder.storeBits data count
  | .zeroes count => Builder.storeZeroes count
  | .byte value => Builder.storeBytes [value]
  | .bytes data => Builder.storeBytes data
  | .field size value => Builder.storeBytes (Bytes.ofNat size value)
  | .lowBits value width => Builder.storeLowBits value width
  | .word value width => Builder.storeWord value width
  | .signedWord value width => Builder.storeSignedWord value width
  | .nat value width => Builder.storeNat value width
  | .int value width => Builder.storeInt value width
  | .varNat value lengthBits => Builder.storeVarNat value lengthBits
  | .ref target => Builder.storeRef target
  | .maybeRef target => Builder.storeMaybeRef target
  | .dictionary d => Builder.storeDictionary d
  | .cell source => Builder.storeCell source
  | .slice source => Builder.storeSlice source
  | .builder calls => Builder.storeBuilder (storeAll calls .empty)
  | .snake data => Builder.storeSnake data
  | .address value => Builder.storeAddress value
  | .externalAddress value => Builder.storeExternalAddress value

/-- What some calls leave of a builder that does not pack its bits. -/
def storeAll : List StoreCall → Builder → Builder
  | [], b => b
  | call :: calls, b => storeAll calls (left call.store b)

end

/-- **A step**: what a store leaves of the bytes is what it leaves of the bits. -/
theorem left_pack {packed : PackedStore} {store : Store} (h : Performs packed store) {b : Builder}
    (hb : b.InLimits) : left packed b.pack = (left store b).pack ∧ b.Grows (left store b) := by
  have hm := h b hb
  unfold left
  generalize packed b.pack = r, store b = r' at hm
  cases hm with
  | ok _ h => exact ⟨rfl, h⟩
  | error _ h => exact ⟨rfl, h⟩

mutual

/-- **Each call** does to the bytes of a builder what it does to its bits. -/
theorem performs (call : StoreCall) : Performs call.run call.store := by
  cases call with
  | bit value => exact performs_storeBit value
  | bits data count => exact performs_storeBits data count
  | zeroes count => exact performs_storeZeroes count
  | byte value => exact performs_storeByte value
  | bytes data => exact performs_storeBytes data
  | field size value => exact performs_storeField size value
  | lowBits value width => exact performs_storeLowBits value value width fun _ _ => rfl
  | word value width => exact performs_storeWord value width
  | signedWord value width => exact performs_storeSignedWord value width
  | nat value width => exact performs_storeNat value width
  | int value width => exact performs_storeInt value width
  | varNat value lengthBits => exact performs_storeVarNat value lengthBits
  | ref target => exact performs_storeRef target
  | maybeRef target => exact performs_storeMaybeRef target
  | dictionary d => exact performs_storeDictionary d
  | cell source => exact performs_storeCell source
  | slice source => exact performs_storePacked source.bits source.refs
  | builder calls =>
    -- the other builder is a packed one too, after its own calls
    change Performs (storeBuilder (runAll calls Builder.empty.pack)) _
    rw [(runAll_pack calls inLimits_empty).1]
    exact performs_storePacked _ _
  | snake data => exact performs_storeSnake data
  | address value => exact performs_storeAddress value
  | externalAddress value => exact performs_storeExternalAddress value

/-- **Calls one after the other** leave the packed form of what they leave of the bits. -/
theorem runAll_pack (calls : List StoreCall) {b : Builder} (hb : b.InLimits) :
    runAll calls b.pack = (storeAll calls b).pack ∧ b.Grows (storeAll calls b) := by
  cases calls with
  | nil => exact ⟨rfl, hb.grows⟩
  | cons call calls =>
    obtain ⟨hleft, hgrows⟩ := left_pack (performs call) hb
    obtain ⟨hall, hgrows'⟩ := runAll_pack calls hgrows.inLimits
    rw [runAll, storeAll, hleft]
    exact ⟨hall, hgrows.trans hgrows'⟩

end

/-! ## Encodings -/

theorem history_eq (calls : List StoreCall) : history calls = (storeAll calls .empty).pack :=
  (runAll_pack calls inLimits_empty).1

/-- **Each call** puts down the encoding of its arguments. -/
theorem encodes (call : StoreCall) : Encodes call.store fun room => call.encoding room := by
  cases call with
  | bit value => exact (puts_append _ _).encodes
  | bits data count => exact encodes_ite puts_storeBits fails_storeBits
  | zeroes count => exact (puts_storeZeroes count).encodes
  | byte value => exact (puts_storeBytes (Bits.ofBytes_singleton value)).encodes
  | bytes data => exact (puts_storeBytes rfl).encodes
  | field size value => exact (puts_storeBytes (Bits.ofBytes_ofNat size value)).encodes
  | lowBits value width => exact encodes_ite (puts_storeLowBits value) (fails_storeLowBits value)
  | word value width => exact encodes_ite puts_storeWord fails_storeWord
  | signedWord value width => exact encodes_ite puts_storeSignedWord fails_storeSignedWord
  | nat value width => exact encodes_ite puts_storeNat fails_storeNat
  | int value width => exact encodes_ite puts_storeInt fails_storeInt
  | varNat value lengthBits => exact encodes_storeVarNat value lengthBits
  | ref target => exact (puts_append _ _).encodes
  | maybeRef target => exact (puts_storeMaybeRef target).encodes
  | dictionary d => exact encodes_storeDictionary d
  | cell source => exact encodes_storeCell source
  | slice source => exact (puts_append _ _).encodes
  | builder calls =>
    have hput := puts_append (storeAll calls .empty).bits (storeAll calls .empty).refs
    have hbits : (history calls).bits = (storeAll calls .empty).bits := by
      rw [history_eq, bits_pack]
    have hrefs : (history calls).refs = (storeAll calls .empty).refs := by
      rw [history_eq]
      rfl
    intro b c hb
    simp only [encoding, hbits, hrefs]
    exact hput.encodes b c hb
  | snake data => exact encodes_storeSnake data
  | address value =>
    cases value with
    | none =>
      have hput : Puts (Builder.storeWord 0 2) [false, false] [] := puts_storeWord (by decide)
      exact hput.encodes
    | some address => exact (puts_storeAddress address).encodes
  | externalAddress value => exact encodes_storeExternalAddress value

/-! ## Histories -/

/-- **A call** puts the encoding of its arguments behind what is there. It fails if there is none or
no room for it, and leaves in front what is there. -/
theorem run_pack (call : StoreCall) {b : Builder} (hb : b.InLimits) :
    match call.run b.pack with
    | .ok _ c => ∃ bits refs, call.encoding b.availableBytes = some (bits, refs) ∧
        c.bits = b.bits ++ bits ∧ c.refs = b.refs ++ refs
    | .error _ c => b.bits <+: c.bits ∧ b.refs <+: c.refs ∧
        ¬ ∃ bits refs, call.encoding b.availableBytes = some (bits, refs) ∧
          b.canFit bits.length refs.length = true := by
  have hm := performs call b hb
  have hencodes (c : Builder) := encodes call b c hb
  generalize call.run b.pack = r, call.store b = r' at hm hencodes
  cases hm with
  | ok _ h =>
    obtain ⟨bits, refs, hencoding, -, rfl⟩ := (hencodes _).mp rfl
    exact ⟨bits, refs, hencoding, bits_pack _, rfl⟩
  | @error e c h =>
    refine ⟨(bits_pack c).symm ▸ h.bits, h.refs, ?_⟩
    rintro ⟨bits, refs, hencoding, hroom⟩
    exact nomatch (hencodes _).mpr ⟨bits, refs, hencoding, hroom, rfl⟩

/-- **The cell** of what is stored is there unless some depth leaves two bytes. -/
theorem endCell_pack {b : Builder} (hb : b.InLimits) :
    match b.pack.endCell with
    | .ok made => made.kind = .ordinary ∧ made.bits = b.bits ∧ made.refs = b.refs
    | .error e => e = .overflow ∧
        Cell.Overdeep .ordinary (Layout.ordinaryMask b.refs) b.refs := by
  have hmake : b.pack.endCell = Cell.make .ordinary b.bits b.refs :=
    endExoticCell_pack hb .ordinary
  rcases Cell.make_ordinary_or_overdeep hb.1 hb.2 with ⟨made, hok, -⟩ | ⟨herror, hdeep⟩
  · rw [hmake, hok]
    exact ⟨Cell.kind_make hok, Cell.bits_make hok, Cell.refs_make hok⟩
  · rw [hmake, herror]
    exact ⟨rfl, hdeep⟩

/-- **A builder refines its bits and references**: after any calls, whether they failed or not, its
bytes hold just its bits, within the limits of a cell; the next call appends the encoding of its
arguments or fails, and alters nothing that is there; and the cell made holds these bits and
references. -/
theorem history_refines (calls : List StoreCall) :
    let b := history calls
    WellFormed b ∧
    (∀ call : StoreCall, match call.run b with
      | .ok _ c => ∃ bits refs, call.encoding b.availableBytes = some (bits, refs) ∧
          c.bits = b.bits ++ bits ∧ c.refs = b.refs ++ refs
      | .error _ c => b.bits <+: c.bits ∧ b.refs <+: c.refs ∧
          ¬ ∃ bits refs, call.encoding b.availableBytes = some (bits, refs) ∧
            b.canFit bits.length refs.length = true) ∧
    match b.endCell with
      | .ok made => made.kind = .ordinary ∧ made.bits = b.bits ∧ made.refs = b.refs
      | .error e => e = .overflow ∧
          Cell.Overdeep .ordinary (Layout.ordinaryMask b.refs) b.refs := by
  have hlimits := (runAll_pack calls inLimits_empty).2.inLimits
  dsimp only
  rw [history_eq, bits_pack]
  exact ⟨wellFormed_pack hlimits, fun call => run_pack call hlimits, endCell_pack hlimits⟩

end StoreCall

end BagOfCells
