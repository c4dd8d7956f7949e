import BagOfCells.Proofs.Schema.Built
import BagOfCells.Proofs.Schema.Norm
import BagOfCells.Schema.Load

/-!
# Records that read back

What a schema stores of a record it loads again, from wherever it was stored. The induction is on
tags, payloads and schemas together; its invariant is that a store appends just what the load reads,
nested cells included, wherever the sizes have put them.

## Main definitions

* `Payload.ReadBack`: what is said of a payload, inline and in a cell

## Main results

* `FieldTag.readsBack`, `Schema.readsBack_fields`: the store of a tag and the fields of a schema
* `Schema.load_store`: a record reads back where it was stored, and from a cell of its own
-/

namespace BagOfCells

open Outcome
open Builder (ReadsBack)

/-! ## Tags -/

section

variable {name : String} {value : Value} {rest : Bool}

theorem readsBack_refuseValue {α : Type} {load : Load α} {a : α} :
    ReadsBack (refuseValue name) load rest a :=
  Builder.appends_throw _

namespace FieldTag

variable {width : Nat} {payload : Payload} {inner : FieldTag}

theorem readsBack_uint :
    ReadsBack ((uint width).store name value) (uint width).load rest ((uint width).norm value) := by
  cases value with
  | uint v => exact (Builder.readsBack_nat v width).map Value.uint
  | _ => exact readsBack_refuseValue

theorem readsBack_int :
    ReadsBack ((int width).store name value) (int width).load rest ((int width).norm value) := by
  cases value with
  | int v => exact (Builder.readsBack_int v width).map Value.int
  | _ => exact readsBack_refuseValue

theorem readsBack_bits :
    ReadsBack ((bits width).store name value) (bits width).load rest ((bits width).norm value) := by
  cases value with
  | bits data =>
    unfold FieldTag.store FieldTag.load
    dsimp only
    split
    · exact Builder.appends_throw _
    · exact (Builder.readsBack_bits data width).map fun bits => Value.bits (Bits.pack bits)
  | _ => exact readsBack_refuseValue

theorem readsBack_bool : ReadsBack (bool.store name value) bool.load rest (bool.norm value) := by
  cases value with
  | bool bit => exact (Builder.readsBack_bit bit).map Value.bool
  | _ => exact readsBack_refuseValue

theorem readsBack_coins :
    ReadsBack (coins.store name value) coins.load rest (coins.norm value) := by
  cases value with
  | coins amount | uint amount => exact (Builder.readsBack_coins amount).map Value.coins
  | _ => exact readsBack_refuseValue

theorem readsBack_address :
    ReadsBack (address.store name value) address.load rest (address.norm value) := by
  cases value with
  | address a => exact (Builder.readsBack_address a).map Value.address
  | none => exact (Builder.readsBack_address none).map Value.address
  | _ => exact readsBack_refuseValue

theorem readsBack_magic {constant : UInt64} (hw : width ≤ 64) :
    ReadsBack ((magic constant width).store name value) (magic constant width).load rest
      ((magic constant width).norm value) := by
  refine (Builder.readsBack_word constant hw).mono fun _ _ h => h.bind_nothing ?_
  rw [if_neg (not_not.mpr rfl)]
  exact .pure _

theorem readsBack_dict (hv : value.Valid) :
    ReadsBack ((dict width).store name value) (dict width).load rest ((dict width).norm value) := by
  cases value with
  | dict d =>
    unfold FieldTag.store FieldTag.load
    dsimp only
    split
    · exact Builder.appends_throw _
    · next h =>
      obtain rfl := not_not.mp h
      exact (Builder.readsBack_dictionary hv).map Value.dict
  | none => exact (Builder.readsBack_no_dictionary width).map Value.dict
  | _ => exact readsBack_refuseValue

theorem store_maybe (h : value ≠ .none) :
    (maybe inner).store name value = (do
      Builder.storeBit true
      inner.store name value) := by
  cases value <;> first | rfl | exact absurd rfl h

theorem norm_maybe (h : value ≠ .none) : (maybe inner).norm value = inner.norm value := by
  cases value <;> first | rfl | exact absurd rfl h

theorem readsBack_maybe
    (h : ReadsBack (inner.store name value) inner.load rest (inner.norm value)) :
    ReadsBack ((maybe inner).store name value) (maybe inner).load rest
      ((maybe inner).norm value) := by
  by_cases hnone : value = .none
  · subst hnone
    exact (Builder.readsBack_bit false).mono fun _ _ hbit => hbit.bind_nothing (.pure _)
  · rw [store_maybe hnone, norm_maybe hnone]
    exact (Builder.readsBack_bit true).bind h

end FieldTag

/-! ## Payloads -/

/-- A payload reads back where it is stored inline, and from its cell, as a whole or put inline. -/
structure Payload.ReadBack (payload : Payload) (name : String) (value : Value) : Prop where
  inline : ReadsBack (payload.storeInline name value) payload.load payload.takesRest
    (payload.norm value)
  cell : ∀ {cell}, payload.toCell name value = .ok cell →
    payload.ofCell cell = .ok (payload.norm value) ∧
      (cell.kind = .ordinary → Slice.Reads payload.load payload.takesRest cell.bits cell.refs
        (payload.norm value))

theorem Payload.readBack_cell (hv : value.Valid) : Payload.cell.ReadBack name value := by
  cases value with
  | cell cell =>
    refine ⟨(Builder.readsBack_cell (Cell.Made.sound hv)).map Value.cell, ?_⟩
    intro found h
    cases h
    exact ⟨rfl, fun hk => (Slice.reads_toCell (Cell.Made.sound hv) hk).map Value.cell⟩
  | _ => exact ⟨readsBack_refuseValue, nofun⟩

theorem Payload.readBack_record {schema : Schema}
    (h : ∀ record, value = .record record → ReadsBack (schema.storeFields record)
      (schema.loadFields .nil) schema.takesRest (Record.ofList (schema.normFields record))) :
    (Payload.record schema).ReadBack name value := by
  cases value with
  | record record =>
    have hfields := h record rfl
    refine ⟨(Builder.Appends.atomically hfields).mono fun _ _ h => h.map Value.record, ?_⟩
    intro cell hcell
    obtain ⟨hreads, hk, hs⟩ := Builder.Appends.build hfields hcell
    refine ⟨?_, fun _ => hreads.map Value.record⟩
    rw [Payload.ofCell, hreads.parse hs hk]
    rfl
  | _ => exact ⟨readsBack_refuseValue, nofun⟩

namespace FieldTag

variable {payload : Payload}

theorem readsBack_ref (h : payload.ReadBack name value) :
    ReadsBack ((ref payload).store name value) (ref payload).load rest
      ((ref payload).norm value) := by
  refine (Builder.checks_ofExcept _).bind fun cell hcell => ?_
  refine (Builder.readsBack_ref cell).mono fun _ _ hread => hread.bind_nothing ?_
  exact Slice.reads_ofExcept (h.cell hcell).1

theorem readsBack_inline (h : payload.ReadBack name value) :
    ReadsBack ((inline payload).store name value) (inline payload).load payload.takesRest
      ((inline payload).norm value) :=
  h.inline

theorem readsBack_either (h : payload.ReadBack name value) :
    ReadsBack ((either payload).store name value) (either payload).load payload.takesRest
      ((either payload).norm value) := by
  refine (Builder.checks_ofExcept _).bind fun cell hcell => ?_
  exact Builder.readsBack_either (h.cell hcell).2 (h.cell hcell).1

end FieldTag

end

/-! ## Schemas -/

namespace Schema

variable {name : String} {tag : FieldTag} {rest : Schema} {record : Record}

theorem takesRest_cons (h : rest ≠ nil) : (cons name tag rest).takesRest = rest.takesRest := by
  cases rest with
  | nil => exact absurd rfl h
  | cons _ _ _ => rw [takesRest]

/-- A constant in front of some fields. -/
theorem readsBack_constant {constant : UInt64} {width : Nat} (hw : width ≤ 64)
    (hrest : ∀ acc, ReadsBack (rest.storeFields record) (rest.loadFields acc) rest.takesRest
      (acc.setAll (rest.normFields record))) (acc : Record) :
    ReadsBack ((cons name (.magic constant width) rest).storeFields record)
      ((cons name (.magic constant width) rest).loadFields acc)
      (cons name (.magic constant width) rest).takesRest
      (acc.setAll ((cons name (.magic constant width) rest).normFields record)) := by
  have htakes : (cons name (.magic constant width) rest).takesRest = rest.takesRest := by
    by_cases hnil : rest = nil
    · subst hnil
      rfl
    · exact takesRest_cons hnil
  rw [htakes]
  exact (Builder.readsBack_constant constant hw).bind (hrest acc)

/-- A field that is no constant in front of some fields. -/
theorem readsBack_value (hs : (cons name tag rest).Sound) (hc : tag.constant? = none)
    (htag : ∀ value, record.get? name = some value →
      ReadsBack (tag.store name value) tag.load tag.takesRest (tag.norm value))
    (hrest : ∀ acc, ReadsBack (rest.storeFields record) (rest.loadFields acc) rest.takesRest
      (acc.setAll (rest.normFields record))) (acc : Record) :
    ReadsBack ((cons name tag rest).storeFields record) ((cons name tag rest).loadFields acc)
      (cons name tag rest).takesRest (acc.setAll ((cons name tag rest).normFields record)) := by
  rw [storeFields, loadFields, normFields, hc]
  cases hv : record.get? name with
  | none => exact Builder.appends_throw_bind _
  | some value =>
    by_cases hnil : rest = nil
    · -- the last field may take the rest
      subst hnil
      exact (htag value hv).bind_nothing (.pure _)
    · rw [takesRest_cons hnil]
      have hread := htag value hv
      rw [hs.2.1 hnil] at hread
      exact hread.bind (hrest _)

end Schema

/-! ## All together -/

mutual
/-- **The value of a field** reads back. -/
theorem FieldTag.readsBack {name : String} : ∀ {tag : FieldTag}, tag.Sound →
    ∀ {value : Value}, value.Valid →
      ReadsBack (tag.store name value) tag.load tag.takesRest (tag.norm value)
  | .uint _, _, _, _ => FieldTag.readsBack_uint
  | .int _, _, _, _ => FieldTag.readsBack_int
  | .bits _, _, _, _ => FieldTag.readsBack_bits
  | .bool, _, _, _ => FieldTag.readsBack_bool
  | .coins, _, _, _ => FieldTag.readsBack_coins
  | .address, _, _, _ => FieldTag.readsBack_address
  | .magic _ _, hs, _, _ => FieldTag.readsBack_magic hs
  | .ref _, hs, _, hv => FieldTag.readsBack_ref (Payload.readBack hs hv)
  | .inline _, hs, _, hv => FieldTag.readsBack_inline (Payload.readBack hs hv)
  | .either _, hs, _, hv => FieldTag.readsBack_either (Payload.readBack hs hv)
  | .maybe inner, hs, _, hv =>
    have hinner : inner.Sound := hs
    FieldTag.readsBack_maybe (FieldTag.readsBack hinner hv)
  | .dict _, _, _, hv => FieldTag.readsBack_dict hv

/-- **What a payload holds** reads back, inline and from its cell. -/
theorem Payload.readBack {name : String} : ∀ {payload : Payload}, payload.Sound →
    ∀ {value : Value}, value.Valid → payload.ReadBack name value
  | .cell, _, _, hv => Payload.readBack_cell hv
  | .record _, hs, _, hv =>
    Payload.readBack_record fun record h =>
      have hr : (Value.record record).Valid := h ▸ hv
      Schema.readsBack_fields hs hr .nil

/-- **The fields of a record** read back. -/
theorem Schema.readsBack_fields : ∀ {schema : Schema}, schema.Sound →
    ∀ {record : Record}, record.Valid → ∀ acc : Record,
      ReadsBack (schema.storeFields record) (schema.loadFields acc) schema.takesRest
        (acc.setAll (schema.normFields record))
  | .nil, _, _, _, acc => Builder.appends_pure (.pure acc)
  | .cons _ tag _, hs, _, hv, acc => by
    cases hc : tag.constant? with
    | none =>
      exact Schema.readsBack_value hs hc (fun _ h => FieldTag.readsBack hs.1 (hv.get? h))
        (Schema.readsBack_fields hs.2.2 hv) acc
    | some constant =>
      obtain rfl := FieldTag.constant?_eq_some_iff.mp hc
      exact Schema.readsBack_constant hs.1 (Schema.readsBack_fields hs.2.2 hv) acc
end

/-- **A record reads back.** Let a record of made cells and dictionaries be stored by a schema that
was built, and any cell be made of the builder after more has been stored behind, or nothing if the
last field takes the rest. Then the schema loads from the place where the record was stored what it
determines of the record, and stops just behind it. And what is stored in a cell of its own is what
is loaded from that cell. -/
theorem Schema.load_store {schema : Schema} (built : schema.Built) {record : Record}
    (valid : record.Valid) :
    (∀ (b b' b'' : Builder) (kind : CellKind) (cell : Cell), schema.store record b = .ok () b' →
      b'.bits <+: b''.bits → b'.refs <+: b''.refs → (schema.takesRest = true → b'' = b') →
      b''.endExoticCell kind = .ok cell →
        schema.load ⟨cell, cell.bits.drop b.bits.length, cell.refs.drop b.refs.length⟩ =
          .ok (schema.norm record)
            ⟨cell, cell.bits.drop b'.bits.length, cell.refs.drop b'.refs.length⟩) ∧
    ∀ cell, schema.toCell record = .ok cell → schema.ofCell cell = .ok (schema.norm record) := by
  have hread : ReadsBack (schema.store record) schema.load schema.takesRest (schema.norm record) :=
    Builder.Appends.atomically (Schema.readsBack_fields built.sound valid .nil)
  refine ⟨?_, fun cell hcell => hread.parse hcell⟩
  intro b b' b'' kind cell hstore hbits hrefs hrest hcell
  exact hread.load_eq hstore hbits hrefs hrest hcell

/-- A note of four bits. -/
def noteSchema : Schema := .cons "text" (.bits 4) .nil

/-- A letter: a constant, an amount, an address, and then as they are there a seal, which is a
constant, a note in a cell of its own, and a body that is inline if it fits. -/
def letterSchema : Schema :=
  .cons "op" (.magic 0xf8 8) (.cons "amount" .coins (.cons "to" .address
    (.cons "sealed" (.maybe (.magic 1 1)) (.cons "note" (.maybe (.ref (.record noteSchema)))
      (.cons "body" (.either .cell) .nil)))))

/-- A letter as it is stored. -/
def letter : Record :=
  .ofList [("amount", .uint 5), ("to", .none), ("sealed", .bool true),
    ("note", .record (.ofList [("text", .bits [0xff])])), ("body", .cell .empty),
    ("more", .uint 3)]

/-- The same as it is loaded. -/
def loadedLetter : Record :=
  .ofList [("amount", .coins 5), ("to", .address none), ("sealed", .none),
    ("note", .record (.ofList [("text", .bits [0xf0])])), ("body", .cell .empty)]

theorem built_letterSchema : letterSchema.Built := by
  have hnote : noteSchema.Built := .field .nil (rfl : Schema.nil.field "text" "bits 4" = _)
  have h : (do
    let s ← Schema.nil.field "op" "#f8"
    let s ← s.field "amount" "coins"
    let s ← s.field "to" "addr"
    let s ← s.field "sealed" "maybe $1"
    let s ← s.nested "note" "maybe ^" noteSchema
    s.field "body" "either . ^") = .ok letterSchema := rfl
  simp only [bind_eq_ok_iff] at h
  obtain ⟨s₁, h₁, s₂, h₂, s₃, h₃, s₄, h₄, s₅, h₅, h₆⟩ := h
  exact .field (.nested (.field (.field (.field (.field .nil h₁) h₂) h₃) h₄) hnote h₅) h₆

theorem valid_letter : letter.Valid :=
  ⟨trivial, Cell.made_empty, trivial, ⟨trivial, trivial⟩, trivial, trivial, trivial⟩

/-- A letter reads back behind a bit that was stored before, and from a cell of its own. -/
theorem Schema.load_store_letter :
    (∃ b cell, letterSchema.store letter ⟨[true], []⟩ = .ok () b ∧ b.endCell = .ok cell ∧
      letterSchema.load ⟨cell, cell.bits.drop 1, cell.refs⟩ =
        .ok loadedLetter ⟨cell, cell.bits.drop b.bits.length, cell.refs.drop b.refs.length⟩) ∧
    ∃ cell, letterSchema.toCell letter = .ok cell ∧
      letterSchema.ofCell cell = .ok loadedLetter := by
  have hnorm : letterSchema.norm letter = loadedLetter := rfl
  obtain ⟨b, hb⟩ : ∃ b, letterSchema.store letter ⟨[true], []⟩ = .ok () b := ⟨_, rfl⟩
  obtain ⟨cell, hcell⟩ : ∃ cell, (Builder.run (letterSchema.store letter) ⟨[true], []⟩ >>=
    Builder.endCell) = .ok cell := ⟨_, rfl⟩
  obtain ⟨own, hown⟩ : ∃ cell, letterSchema.toCell letter = .ok cell := ⟨_, rfl⟩
  obtain ⟨hplaced, hwhole⟩ := Schema.load_store built_letterSchema valid_letter
  rw [hnorm] at hplaced hwhole
  rw [Builder.run_eq_ok_iff.mpr hb] at hcell
  exact ⟨⟨b, cell, hb, hcell, hplaced _ b b .ordinary cell hb List.prefix_rfl List.prefix_rfl
    (fun _ => rfl) hcell⟩, own, hown, hwhole own hown⟩

end BagOfCells
