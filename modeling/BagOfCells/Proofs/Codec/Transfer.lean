import BagOfCells.Proofs.Codec.RoundTrip
import BagOfCells.Proofs.Schema.Norm
import BagOfCells.Proofs.Wire.Exact
import BagOfCells.Proofs.Wire.Rest
import BagOfCells.Schema.Load

/-!
# A transfer by its schema

A transfer of jettons has a codec of its own, and it can be described by a schema. The two go
different ways: a number of 64 bits is a machine word or a number of any width, an optional cell is
stored at once or behind a bit of its own, and a payload is encoded before it is placed or is a cell
already. Still they store the same bits and references, refuse what does not fit for the same
reason, and load the same fields. Only the codec is stricter in what it takes: it wants a
destination, and a payload that holds data.

## Main definitions

* `Builder.Alike first second`: stores with the same outcome
* `transferFields`, `transferSchema`: the schema of a transfer
* `TransferHead`, `JettonTransfer.toRecord`: a transfer in front of its payload, and its record

## Main results

* `JettonTransfer.alike_store`: both store alike
* `JettonTransfer.load_transferSchema`, `JettonTransfer.load_eq_ok_iff`: what both load
* `JettonTransfer.codec_eq_schema`: the two agree
-/

namespace BagOfCells

open Outcome

/-! ## Stores that are alike -/

namespace Builder

variable {first first' : Store} {next next' : Unit → Store}

/-- Two stores give the same outcome from any builder on, whatever a failure leaves behind. -/
def Alike (first second : Store) : Prop :=
  ∀ b, run first b = run second b

theorem Alike.refl (store : Store) : Alike store store :=
  fun _ => rfl

theorem run_bind (first : Store) (next : Unit → Store) (b : Builder) :
    run (first >>= next) b = run first b >>= run (next ()) := by
  unfold run
  cases h : first b with
  | ok a b' => rw [run_bind_of_ok h]; rfl
  | error e b' => rw [run_bind_of_error h]; rfl

theorem Alike.bind (h : Alike first first') (hn : Alike (next ()) (next' ())) :
    Alike (first >>= next) (first' >>= next') := by
  intro b
  rw [run_bind, run_bind, h b]
  cases run first' b with
  | ok b' => exact hn b'
  | error e => rfl

theorem Alike.build (h : Alike first first') : build first = build first' := by
  unfold Builder.build
  rw [h empty]

theorem alike_atomically (store : Store) : Alike (atomically store) store := by
  intro b
  unfold run atomically
  cases store b <;> rfl

theorem run_append (bits : Bits) (refs : List Cell) (b : Builder) :
    run (append bits refs) b = match b.refusal? bits.length refs.length with
      | some e => .error e
      | none => .ok ⟨b.bits ++ bits, b.refs ++ refs⟩ := by
  unfold run append
  cases b.refusal? bits.length refs.length <;> rfl

/-- Room is looked for first for bits, then for references, also where both go in together. -/
theorem alike_append (bits : Bits) (refs : List Cell) :
    Alike (append bits refs) (do append bits []; append [] refs) := by
  intro b
  rw [run_bind, run_append, run_append]
  by_cases hb : bits.length > b.availableBits
  · have hrefused (refs : List Cell) : b.refusal? bits.length refs.length =
        some (.bits bits.length b.availableBits) := if_pos hb
    rw [hrefused, hrefused]
    rfl
  · have hbits : b.refusal? bits.length ([] : List Cell).length = none := by
      simp [refusal?, hb]
    have hrefs : refusal? ⟨b.bits ++ bits, b.refs ++ []⟩ ([] : Bits).length refs.length =
        b.refusal? bits.length refs.length := by
      simp [refusal?, hb, availableRefs]
    rw [hbits]
    change _ = run (append [] refs) ⟨b.bits ++ bits, b.refs ++ []⟩
    rw [run_append, hrefs, List.append_nil, List.append_nil]

/-- A machine word is a number that fits. -/
theorem storeLowBits_eq (word : UInt64) : storeLowBits word 64 = storeNat word.toNat 64 := by
  rw [storeNat_eq (Bits.size_le_iff_lt.mpr word.toNat_lt)]
  unfold storeLowBits
  rw [if_neg (by decide), Bits.ofWord_eq_ofNat le_rfl]

end Builder

/-! ## Cells inline or in a reference -/

namespace Slice

theorem loadEither_eq_ok_iff {α : Type} {inline : Load α} {inRef : Cell → Except CellError α}
    {s s'' : Slice} {a : α} :
    loadEither inline inRef s = .ok a s'' ↔
      (∃ s', loadBit s = .ok false s' ∧ inline s' = .ok a s'') ∨
        ∃ s' c, loadBit s = .ok true s' ∧ loadRef s' = .ok c s'' ∧ inRef c = .ok a := by
  unfold loadEither
  rw [run_bind_eq_ok_iff]
  constructor
  · rintro ⟨bit, s', hbit, h⟩
    cases bit with
    | false => exact .inl ⟨s', hbit, h⟩
    | true =>
      obtain ⟨c, s₁, href, h⟩ := run_bind_eq_ok_iff.mp h
      cases ha : inRef c with
      | error e =>
        rw [ha] at h
        cases h
      | ok _ =>
        rw [ha] at h
        cases h
        exact .inr ⟨s', c, hbit, href, ha⟩
  · rintro (⟨s', hbit, h⟩ | ⟨s', c, hbit, href, ha⟩)
    · exact ⟨false, s', hbit, h⟩
    · refine ⟨true, s', hbit, (run_bind_of_ok href).trans ?_⟩
      rw [ha]
      rfl

end Slice

/-! ## The schema and its records -/

/-- The fields of a transfer. -/
def transferFields : List (String × String) :=
  [("op", "#0f8a7ea5"), ("query_id", "## 64"), ("amount", "coins"), ("destination", "addr"),
    ("response_destination", "addr"), ("custom_payload", "maybe ^"),
    ("forward_ton_amount", "coins"), ("forward_payload", "either . ^")]

/-- The schema of a transfer. -/
def transferSchema : Schema :=
  .cons "op" (.magic 0x0f8a7ea5 32) (.cons "query_id" (.uint 64) (.cons "amount" .coins
    (.cons "destination" .address (.cons "response_destination" .address
      (.cons "custom_payload" (.maybe (.ref .cell)) (.cons "forward_ton_amount" .coins
        (.cons "forward_payload" (.either .cell) .nil)))))))

/-- What a transfer holds in front of its payload, perhaps without a destination. -/
structure TransferHead where
  queryId : UInt64
  amount : Nat
  destination : Option Address
  responseDestination : Option Address
  customPayload : Option Cell
  forwardAmount : Nat

/-- The record of a transfer. -/
def TransferHead.toRecord (head : TransferHead) (payload : Cell) : Record :=
  .ofList [("query_id", .uint head.queryId.toNat), ("amount", .coins head.amount),
    ("destination", .address head.destination),
    ("response_destination", .address head.responseDestination),
    ("custom_payload", head.customPayload.elim .none .cell),
    ("forward_ton_amount", .coins head.forwardAmount), ("forward_payload", .cell payload)]

/-- Loads what a transfer holds in front of its payload. -/
def TransferHead.load : Load TransferHead := do
  Slice.loadConstant JettonTransfer.tag 32
  let queryId ← Slice.loadWord 64
  let amount ← Slice.loadCoinsNat
  let destination ← Slice.loadAddress
  let responseDestination ← Slice.loadAddress
  let customPayload ← Slice.loadMaybeRef
  let forwardAmount ← Slice.loadCoinsNat
  return { queryId, amount, destination, responseDestination, customPayload, forwardAmount }

theorem parse_transferFields : Schema.parse transferFields = .ok transferSchema := rfl

namespace JettonTransfer

/-- The part of a transfer in front of its payload. -/
def head (t : JettonTransfer) : TransferHead where
  queryId := t.queryId
  amount := t.amount
  destination := some t.destination
  responseDestination := t.responseDestination
  customPayload := t.customPayload
  forwardAmount := t.forwardAmount

/-- The record of a transfer. -/
def toRecord (t : JettonTransfer) : Record :=
  t.head.toRecord t.forwardPayload

/-! ## Storing -/

theorem storeFields_toRecord (t : JettonTransfer) : transferSchema.storeFields t.toRecord = (do
    Builder.storeWord 0x0f8a7ea5 32
    Builder.storeNat t.queryId.toNat 64
    Builder.storeCoins t.amount
    Builder.storeAddress (some t.destination)
    Builder.storeAddress t.responseDestination
    (FieldTag.maybe (.ref .cell)).store "custom_payload" (t.customPayload.elim .none .cell)
    Builder.storeCoins t.forwardAmount
    (FieldTag.either .cell).store "forward_payload" (.cell t.forwardPayload)) := by
  simp [transferSchema, Schema.storeFields, FieldTag.constant?, toRecord, TransferHead.toRecord,
    head, Record.ofList, Record.get?_set, FieldTag.store]

theorem alike_customPayload (name : String) (custom : Option Cell) :
    Builder.Alike (Builder.storeMaybeRef custom)
      ((FieldTag.maybe (.ref .cell)).store name (custom.elim .none .cell)) := by
  cases custom with
  | none => exact .refl _
  | some cell => exact Builder.alike_append [true] [cell]

/-- An ordinary cell put into a cell of its own is that cell. -/
theorem toCell_rest {c : Cell} (hm : c.Made) (hk : c.isExotic = false) :
    Codec.rest.toCell c = .ok c := by
  have hkind : c.kind = .ordinary := by simpa [Cell.isExotic, CellKind.isExotic] using hk
  have hstore : Builder.storeCell c = Builder.append c.bits c.refs := by
    simp [Builder.storeCell, hk]
  obtain ⟨-, -, hrun⟩ | ⟨hover, -⟩ := (Builder.stores_append c.bits c.refs).run_empty
  · change Builder.run (Builder.storeCell c) .empty >>= Builder.endCell = _
    rw [hstore, hrun]
    change Cell.make .ordinary c.bits c.refs = _
    exact hkind ▸ Cell.make_of_sound hm.sound
  · exact absurd ⟨hm.sound.bits_le, hm.sound.refs_le⟩ hover

/-- **Both front ends store a transfer alike** if its payload is an ordinary cell. -/
theorem alike_store {t : JettonTransfer} (hm : t.forwardPayload.Made)
    (hk : t.forwardPayload.isExotic = false) :
    Builder.Alike (codec.store t) (transferSchema.storeFields t.toRecord) := by
  have hpayload : payloadCodec.store t.forwardPayload =
      (FieldTag.either .cell).store "forward_payload" (.cell t.forwardPayload) := by
    change (do Builder.storeEither (← ofExcept (Codec.rest.toCell t.forwardPayload))) = _
    rw [toCell_rest hm hk]
    rfl
  rw [storeFields_toRecord, ← hpayload]
  refine .bind (.refl _) ?_
  refine .bind (Builder.storeLowBits_eq t.queryId ▸ .refl _) ?_
  refine .bind (.refl _) (.bind (.refl _) (.bind (.refl _) ?_))
  exact .bind (alike_customPayload _ _) (.refl _)

/-! ## Loading -/

theorem load_queryId : (FieldTag.uint 64).load = (do
    let word ← Slice.loadWord 64
    return .uint word.toNat) := by
  rw [Slice.loadWord_eq le_rfl]
  funext s
  unfold FieldTag.load Slice.loadNat
  simp only [bind_assoc, pure_bind]
  by_cases h : 64 ≤ s.bits.length
  · have hload := (Slice.loadBits_eq 64 s).trans (if_pos h)
    have hlen : (s.bits.take 64).length ≤ 64 := List.length_take_le ..
    rw [run_bind_of_ok hload, run_bind_of_ok hload, Bits.toNat_toWord hlen]
  · have hload := (Slice.loadBits_eq 64 s).trans (if_neg h)
    rw [run_bind_of_error hload, run_bind_of_error hload]

theorem load_customPayload : (FieldTag.maybe (.ref .cell)).load = (do
    let custom ← Slice.loadMaybeRef
    return custom.elim .none .cell) := by
  unfold FieldTag.load Slice.loadMaybeRef
  rw [bind_assoc]
  congr 1
  funext bit
  cases bit with
  | false => rfl
  | true =>
    rw [if_pos rfl, if_pos rfl, bind_assoc]
    rfl

theorem load_forwardPayload : (FieldTag.either .cell).load = (do
    let payload ← Slice.loadEither Slice.toCell .ok
    return .cell payload) := by
  unfold FieldTag.load Slice.loadEither
  rw [bind_assoc]
  congr 1
  funext bit
  cases bit with
  | false => rfl
  | true =>
    rw [if_pos rfl, if_pos rfl, bind_assoc]
    rfl

theorem load_transferSchema : transferSchema.load = (do
    let head ← TransferHead.load
    let payload ← Slice.loadEither Slice.toCell .ok
    return head.toRecord payload) := by
  simp only [Schema.load, transferSchema, Schema.loadFields, FieldTag.constant?, load_queryId,
    load_customPayload, load_forwardPayload]
  simp only [FieldTag.load, TransferHead.load, bind_assoc, pure_bind]
  rfl

theorem load_address_eq_ok_iff {s s' : Slice} {address : Address} :
    Codec.address.load s = .ok address s' ↔ Slice.loadAddress s = .ok (some address) s' := by
  constructor
  · intro h
    obtain ⟨address?, s₁, hload, h⟩ := run_bind_eq_ok_iff.mp h
    cases address? with
    | none => cases h
    | some found =>
      cases h
      exact hload
  · intro h
    exact run_bind_of_ok h

theorem load_eq_ok_iff {s s'' : Slice} {t : JettonTransfer} :
    codec.load s = .ok t s'' ↔ ∃ s', TransferHead.load s = .ok t.head s' ∧
      Slice.loadEither Slice.toCell Codec.rest.ofCell s' = .ok t.forwardPayload s'' := by
  constructor
  · intro h
    obtain ⟨_, s₁, h₁, h⟩ := run_bind_eq_ok_iff.mp h
    obtain ⟨queryId, s₂, h₂, h⟩ := run_bind_eq_ok_iff.mp h
    obtain ⟨amount, s₃, h₃, h⟩ := run_bind_eq_ok_iff.mp h
    obtain ⟨destination, s₄, h₄, h⟩ := run_bind_eq_ok_iff.mp h
    obtain ⟨response, s₅, h₅, h⟩ := run_bind_eq_ok_iff.mp h
    obtain ⟨custom, s₆, h₆, h⟩ := run_bind_eq_ok_iff.mp h
    obtain ⟨forwardAmount, s₇, h₇, h⟩ := run_bind_eq_ok_iff.mp h
    obtain ⟨payload, s₈, h₈, h⟩ := run_bind_eq_ok_iff.mp h
    cases h
    have hdestination := load_address_eq_ok_iff.mp h₄
    refine ⟨s₇, ?_, h₈⟩
    exact (run_bind_of_ok h₁).trans <| (run_bind_of_ok h₂).trans <| (run_bind_of_ok h₃).trans <|
      (run_bind_of_ok hdestination).trans <| (run_bind_of_ok h₅).trans <|
      (run_bind_of_ok h₆).trans <| (run_bind_of_ok h₇).trans rfl
  · rintro ⟨s', hhead, hpayload⟩
    obtain ⟨_, s₁, h₁, h⟩ := run_bind_eq_ok_iff.mp hhead
    obtain ⟨queryId, s₂, h₂, h⟩ := run_bind_eq_ok_iff.mp h
    obtain ⟨amount, s₃, h₃, h⟩ := run_bind_eq_ok_iff.mp h
    obtain ⟨destination, s₄, h₄, h⟩ := run_bind_eq_ok_iff.mp h
    obtain ⟨response, s₅, h₅, h⟩ := run_bind_eq_ok_iff.mp h
    obtain ⟨custom, s₆, h₆, h⟩ := run_bind_eq_ok_iff.mp h
    obtain ⟨forwardAmount, s₇, h₇, h⟩ := run_bind_eq_ok_iff.mp h
    cases h
    have hdestination := load_address_eq_ok_iff.mpr h₄
    exact (run_bind_of_ok h₁).trans <| (run_bind_of_ok h₂).trans <| (run_bind_of_ok h₃).trans <|
      (run_bind_of_ok hdestination).trans <| (run_bind_of_ok h₅).trans <|
      (run_bind_of_ok h₆).trans <| (run_bind_of_ok h₇).trans <| (run_bind_of_ok hpayload).trans rfl

theorem gives_head : Slice.Gives TransferHead.load fun _ => True := by
  refine (Slice.gives_loadConstant _ _).bind fun _ _ => (Slice.gives_loadWord _).bind fun _ _ => ?_
  refine (Slice.gives_loadVarNat 4).bind fun _ _ => Slice.gives_loadAddress.bind fun _ _ => ?_
  refine Slice.gives_loadAddress.bind fun _ _ => Slice.gives_loadMaybeRef.bind fun _ _ => ?_
  exact (Slice.gives_loadVarNat 4).map fun _ _ => trivial

/-! ### Payloads -/

theorem ofCell_rest (c : Cell) :
    Codec.rest.ofCell c = if c.isExotic then .error (.unsupportedKind c.kind) else .ok c := by
  cases hk : c.isExotic with
  | true => simp [Codec.ofCell, Slice.parse, Slice.ordinary, hk]
  | false =>
    refine Slice.parse_eq_ok_iff.mpr ⟨hk, ⟨c, [], []⟩, ?_, rfl⟩
    change (if Slice.bitPosition (.ofCell c) = 0 ∧ Slice.refPosition (.ofCell c) = 0 ∧
      c.isExotic = false then pure c else _ : Load Cell) ⟨c, [], []⟩ = _
    rw [if_pos ⟨Nat.sub_self _, Nat.sub_self _, hk⟩]
    rfl

/-- What is left of a slice is put into an ordinary cell. -/
theorem isExotic_toCell {s s' : Slice} {c : Cell} (h : Slice.toCell s = .ok c s') :
    c.isExotic = false := by
  obtain ⟨_, _, ⟨⟩, h⟩ := run_bind_eq_ok_iff.mp h
  obtain ⟨_, _, ⟨⟩, h⟩ := run_bind_eq_ok_iff.mp h
  split at h
  · next hwhole =>
    cases h
    exact hwhole.2.2
  · cases hm : Cell.make .ordinary s.bits s.refs with
    | error e =>
      rw [hm] at h
      cases h
    | ok cell =>
      rw [hm] at h
      cases h
      rw [Cell.isExotic, Cell.kind_make hm]
      rfl

/-- The typed codec takes any payload that the schema takes but an exotic one. -/
theorem load_payload_eq_ok_iff {s s' : Slice} {payload : Cell} :
    Slice.loadEither Slice.toCell Codec.rest.ofCell s = .ok payload s' ↔
      Slice.loadEither Slice.toCell .ok s = .ok payload s' ∧ payload.isExotic = false := by
  have hrest {c : Cell} : Codec.rest.ofCell c = .ok payload ↔
      (Except.ok c : Except CellError Cell) = .ok payload ∧ payload.isExotic = false := by
    rw [ofCell_rest, Except.ok.injEq]
    constructor
    · intro h
      split at h
      · cases h
      · next hk =>
        cases h
        exact ⟨rfl, Bool.eq_false_iff.mpr hk⟩
    · rintro ⟨rfl, hk⟩
      rw [hk]
      rfl
  rw [Slice.loadEither_eq_ok_iff, Slice.loadEither_eq_ok_iff]
  constructor
  · rintro (⟨s₁, hbit, h⟩ | ⟨s₁, c, hbit, href, h⟩)
    · exact ⟨.inl ⟨s₁, hbit, h⟩, isExotic_toCell h⟩
    · exact ⟨.inr ⟨s₁, c, hbit, href, (hrest.mp h).1⟩, (hrest.mp h).2⟩
  · rintro ⟨⟨s₁, hbit, h⟩ | ⟨s₁, c, hbit, href, h⟩, hk⟩
    · exact .inl ⟨s₁, hbit, h⟩
    · exact .inr ⟨s₁, c, hbit, href, hrest.mpr ⟨h, hk⟩⟩

/-- An exotic payload has been taken from a reference. -/
theorem mem_refs_of_exotic {s s' : Slice} {payload : Cell}
    (h : Slice.loadEither Slice.toCell .ok s = .ok payload s') (hk : payload.isExotic = true) :
    payload ∈ s.refs := by
  rcases Slice.loadEither_eq_ok_iff.mp h with ⟨s₁, -, h⟩ | ⟨s₁, c, hbit, href, h⟩
  · rw [isExotic_toCell h] at hk
    cases hk
  · cases h
    obtain ⟨bits, rfl, -⟩ := (Slice.accepts_bit.ok_iff _ _ _).mp hbit
    obtain ⟨cell, bits, refs⟩ := s₁
    cases refs with
    | nil => cases href
    | cons ref refs =>
      cases href
      exact List.mem_cons_self

/-! ## Both front ends -/

theorem get?_destination (head : TransferHead) (payload : Cell) :
    (head.toRecord payload).get? "destination" = some (.address head.destination) := by
  simp [TransferHead.toRecord, Record.ofList, Record.get?_set]

theorem get?_forwardPayload (head : TransferHead) (payload : Cell) :
    (head.toRecord payload).get? "forward_payload" = some (.cell payload) := by
  simp [TransferHead.toRecord, Record.ofList, Record.get?_set]

/-- A record is loaded from a cell if the head and the payload of a transfer are. -/
theorem ofCell_transferSchema_eq_ok_iff {cell : Cell} {r : Record} :
    transferSchema.ofCell cell = .ok r ↔ cell.isExotic = false ∧ ∃ head s payload s',
      TransferHead.load (.ofCell cell) = .ok head s ∧
        Slice.loadEither Slice.toCell .ok s = .ok payload s' ∧ s'.isEmpty = true ∧
          r = head.toRecord payload := by
  rw [Schema.ofCell, Slice.parse_eq_ok_iff, load_transferSchema]
  refine and_congr_right fun _ => ⟨?_, ?_⟩
  · rintro ⟨s', h, hempty⟩
    obtain ⟨head, s, hhead, h⟩ := run_bind_eq_ok_iff.mp h
    obtain ⟨payload, _, hpayload, ⟨⟩⟩ := run_bind_eq_ok_iff.mp h
    exact ⟨head, s, payload, s', hhead, hpayload, hempty, rfl⟩
  · rintro ⟨head, s, payload, s', hhead, hpayload, hempty, rfl⟩
    exact ⟨s', (run_bind_of_ok hhead).trans ((run_bind_of_ok hpayload).trans rfl), hempty⟩

/-- A transfer is loaded from a cell if its head and its payload are, which is not exotic. -/
theorem ofCell_codec_eq_ok_iff {cell : Cell} {t : JettonTransfer} :
    codec.ofCell cell = .ok t ↔ cell.isExotic = false ∧ ∃ s s',
      TransferHead.load (.ofCell cell) = .ok t.head s ∧
        Slice.loadEither Slice.toCell .ok s = .ok t.forwardPayload s' ∧ s'.isEmpty = true ∧
          t.forwardPayload.isExotic = false := by
  rw [Codec.ofCell, Slice.parse_eq_ok_iff]
  refine and_congr_right fun _ => ?_
  simp only [load_eq_ok_iff, load_payload_eq_ok_iff]
  constructor
  · rintro ⟨s', ⟨s, hhead, hpayload, hk⟩, hempty⟩
    exact ⟨s, s', hhead, hpayload, hempty, hk⟩
  · rintro ⟨s, s', hhead, hpayload, hempty, hk⟩
    exact ⟨s', ⟨s, hhead, hpayload, hk⟩, hempty⟩

/-- A transfer is made of what a record holds, if that has a destination. -/
theorem exists_head {head : TransferHead} (h : head.destination ≠ none) (payload : Cell) :
    ∃ t : JettonTransfer, t.head = head ∧ t.forwardPayload = payload := by
  obtain ⟨queryId, amount, _ | destination, response, custom, forwardAmount⟩ := head
  · exact absurd rfl h
  · exact ⟨⟨queryId, amount, destination, response, custom, forwardAmount, payload⟩, rfl, rfl⟩

/-- **The typed codec and the schema of a transfer agree.** The texts of its fields make the schema.
Every transfer with an ordinary payload is stored by both in the same cell, or refused by both for
the same reason. And of every made cell: what the typed codec loads the schema loads too, as the
record of it; and what the schema loads the typed codec loads too, unless the destination is none
or the payload an exotic cell from a reference. -/
theorem codec_eq_schema :
    Schema.parse transferFields = .ok transferSchema ∧
    (∀ t : JettonTransfer, t.forwardPayload.Made → t.forwardPayload.isExotic = false →
      codec.toCell t = transferSchema.toCell t.toRecord) ∧
    ∀ cell : Cell, cell.Made →
      (∀ t, codec.ofCell cell = .ok t → transferSchema.ofCell cell = .ok t.toRecord) ∧
      ∀ r, transferSchema.ofCell cell = .ok r →
        ((∃ t, codec.ofCell cell = .ok t) ↔
          ¬ (r.get? "destination" = some (.address none) ∨
            ∃ payload ∈ cell.refs, r.get? "forward_payload" = some (.cell payload) ∧
              payload.isExotic = true)) := by
  refine ⟨parse_transferFields, fun t hm hk => ?_,
    fun cell hcell => ⟨fun t ht => ?_, fun r hr => ?_⟩⟩
  · have hfields := (alike_store hm hk).build
    exact hfields.trans (Builder.alike_atomically _).build.symm
  · obtain ⟨hordinary, s, s', hhead, hpayload, hempty, -⟩ := ofCell_codec_eq_ok_iff.mp ht
    exact ofCell_transferSchema_eq_ok_iff.mpr
      ⟨hordinary, t.head, s, t.forwardPayload, s', hhead, hpayload, hempty, rfl⟩
  · obtain ⟨hordinary, head, s, payload, s', hhead, hpayload, hempty, rfl⟩ :=
      ofCell_transferSchema_eq_ok_iff.mp hr
    rw [get?_destination, get?_forwardPayload]
    constructor
    · rintro ⟨t, ht⟩
      obtain ⟨-, s₁, s₁', hhead', hpayload', -, hk⟩ := ofCell_codec_eq_ok_iff.mp ht
      -- both have loaded the same head and the same payload
      obtain ⟨rfl, rfl⟩ := EStateM.Result.ok.inj (hhead.symm.trans hhead')
      obtain ⟨rfl, rfl⟩ := EStateM.Result.ok.inj (hpayload.symm.trans hpayload')
      rintro (hnone | ⟨_, -, ⟨⟩, hexotic⟩)
      · cases hnone
      · rw [hk] at hexotic
        cases hexotic
    · intro h
      obtain ⟨hnone, hinner⟩ := not_or.mp h
      have hdestination : head.destination ≠ none := fun he => hnone (by rw [he])
      obtain ⟨t, rfl, rfl⟩ := exists_head hdestination payload
      have hleaves := (gives_head _ _ _ (Slice.made_ofCell hcell) hhead).1
      have hk : t.forwardPayload.isExotic = false := by
        refine Bool.eq_false_iff.mpr fun hexotic => hinner ⟨t.forwardPayload, ?_, rfl, hexotic⟩
        exact hleaves.refs.subset (mem_refs_of_exotic hpayload hexotic)
      exact ⟨t, ofCell_codec_eq_ok_iff.mpr ⟨hordinary, s, s', hhead, hpayload, hempty, hk⟩⟩

-- the bits of the cell are gone through one by one
set_option maxRecDepth 4000 in
/-- A transfer is stored in one cell by both front ends, and loaded from there by both. -/
theorem codec_eq_schema_sent : ∃ cell,
    codec.toCell Shape.sent = .ok cell ∧ transferSchema.toCell Shape.sent.toRecord = .ok cell ∧
      transferSchema.ofCell cell = .ok Shape.sent.toRecord ∧ ∃ t, codec.ofCell cell = .ok t := by
  obtain ⟨-, hstore, hload⟩ := codec_eq_schema
  obtain ⟨cell, hcell⟩ : ∃ cell, codec.toCell Shape.sent = .ok cell := ⟨_, rfl⟩
  have hrefs : (codec.toCell Shape.sent).map Cell.refs = .ok [.empty] := rfl
  rw [hcell] at hrefs
  have hmade : cell.Made := by
    refine Cell.made_iff.mpr ⟨?_, ?_⟩
    · obtain ⟨_, _, hmake⟩ := bind_eq_ok_iff.mp hcell
      exact Cell.sound_of_make hmake
    · rw [show cell.refs = [.empty] from Except.ok.inj hrefs]
      exact List.forall_mem_singleton.mpr Cell.made_empty
  have hsame := hstore Shape.sent Cell.made_empty rfl
  have htyped := (returns_codec Shape.valid_sent).ofCell_toCell hcell
  have hrecord := (hload cell hmade).1 _ htyped
  refine ⟨cell, hcell, hsame ▸ hcell, hrecord, ((hload cell hmade).2 _ hrecord).mpr ?_⟩
  rintro (h | ⟨payload, -, h, hk⟩)
  · rw [toRecord, get?_destination] at h
    cases h
  · rw [toRecord, get?_forwardPayload] at h
    cases h
    cases hk

end JettonTransfer

end BagOfCells
