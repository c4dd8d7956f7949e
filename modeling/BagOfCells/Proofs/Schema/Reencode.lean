import BagOfCells.Proofs.Schema.RoundTrip

/-!
# Records that are stored again

What is loaded of a record is stored again as the record was, tag by tag, but for one form of
field. A constant has no value, so where one stands behind a presence bit the value that is loaded
is none whether the constant was there or not, and none is stored as an absent field. From the first
such field on the two cells differ. So a cell is made again of what is loaded from it exactly when
no optional constant was present.

## Main definitions

* `FieldTag.Keeps`, `Payload.Keeps`, `Schema.Keeps`: no optional constant is present
* `FieldTag.Definite`, `Payload.Definite`, `Schema.Definite`: no constant is optional
* `FieldTag.Distinct`, `Payload.Distinct`, `Schema.Distinct`: names are distinct at every depth
* `Builder.Parted`: two builders that can never hold the same again

## Main results

* `FieldTag.store_norm`, `Schema.storeFields_eq`: what is kept is stored alike
* `FieldTag.parted`, `Schema.parted`: what is not kept parts the builders
* `Schema.toCell_ofCell`: when a cell is made again of what is loaded from it
-/

namespace BagOfCells

open Outcome
open Builder (Appends ReadsBack)

/-! ## Optional constants -/

/-- Whether a tag is that of a constant, behind any presence bits. -/
def FieldTag.isConstant : FieldTag → Bool
  | .magic _ _ => true
  | .maybe inner => inner.isConstant
  | .uint _ | .int _ | .bits _ | .bool | .coins | .address | .ref _ | .inline _ | .either _
  | .dict _ => false

mutual
/-- No constant is present in a value behind a presence bit. -/
def FieldTag.Keeps : FieldTag → Value → Prop
  | .maybe inner, value => value = .none ∨ inner.isConstant = false ∧ inner.Keeps value
  | .ref payload, value | .inline payload, value | .either payload, value => payload.Keeps value
  | .uint _, _ | .int _, _ | .bits _, _ | .bool, _ | .coins, _ | .address, _ | .magic _ _, _
  | .dict _, _ => True

/-- No constant is present in a nested record behind a presence bit. -/
def Payload.Keeps : Payload → Value → Prop
  | .cell, _ => True
  | .record schema, value => ∀ record, value = .record record → schema.Keeps record

/-- No constant is present in a record behind a presence bit, at any depth of nesting. -/
def Schema.Keeps : Schema → Record → Prop
  | .nil, _ => True
  | .cons name tag rest, record =>
    (∀ value, record.get? name = some value → tag.Keeps value) ∧ rest.Keeps record
end

mutual
/-- No constant stands behind a presence bit. -/
def FieldTag.Definite : FieldTag → Prop
  | .maybe inner => inner.isConstant = false ∧ inner.Definite
  | .ref payload | .inline payload | .either payload => payload.Definite
  | .uint _ | .int _ | .bits _ | .bool | .coins | .address | .magic _ _ | .dict _ => True

/-- No constant of a nested schema stands behind a presence bit. -/
def Payload.Definite : Payload → Prop
  | .cell => True
  | .record schema => schema.Definite

/-- No constant of a schema stands behind a presence bit, at any depth of nesting. -/
def Schema.Definite : Schema → Prop
  | .nil => True
  | .cons _ tag rest => tag.Definite ∧ rest.Definite
end

mutual
theorem FieldTag.Definite.keeps : ∀ {tag : FieldTag}, tag.Definite → ∀ value, tag.Keeps value
  | .maybe _, h, value => .inr ⟨h.1, FieldTag.Definite.keeps h.2 value⟩
  | .ref payload, h, value | .inline payload, h, value | .either payload, h, value =>
    have hp : payload.Definite := h
    Payload.Definite.keeps hp value
  | .uint _, _, _ | .int _, _, _ | .bits _, _, _ | .bool, _, _ | .coins, _, _ | .address, _, _
  | .magic _ _, _, _ | .dict _, _, _ => trivial

theorem Payload.Definite.keeps : ∀ {payload : Payload}, payload.Definite →
    ∀ value, payload.Keeps value
  | .cell, _, _ => trivial
  | .record schema, h, _ => fun record _ =>
    have hs : schema.Definite := h
    Schema.Definite.keeps hs record

/-- Of a schema without optional constants none is present in any record. -/
theorem Schema.Definite.keeps : ∀ {schema : Schema}, schema.Definite →
    ∀ record, schema.Keeps record
  | .nil, _, _ => trivial
  | .cons _ _ _, h, record =>
    ⟨fun value _ => FieldTag.Definite.keeps h.1 value, Schema.Definite.keeps h.2 record⟩
end

/-! ## Names -/

mutual
/-- The names of a nested schema are distinct. -/
def FieldTag.Distinct : FieldTag → Prop
  | .maybe inner => inner.Distinct
  | .ref payload | .inline payload | .either payload => payload.Distinct
  | .uint _ | .int _ | .bits _ | .bool | .coins | .address | .magic _ _ | .dict _ => True

/-- The names of the schema of a payload are distinct. -/
def Payload.Distinct : Payload → Prop
  | .cell => True
  | .record schema => schema.Distinct

/-- The names of the fields that are no constants are distinct, at every depth of nesting. -/
def Schema.Distinct : Schema → Prop
  | .nil => True
  | .cons name tag rest =>
    (tag.constant? = none → name ∉ rest.names) ∧ tag.Distinct ∧ rest.Distinct
end

/-- What is found in a record under the names of a schema is what is loaded of another record. -/
def Schema.Reloads (schema : Schema) (record loaded : Record) : Prop :=
  ∀ name tag, (name, tag) ∈ schema.fields → tag.constant? = none →
    loaded.get? name = (record.get? name).map tag.norm

namespace Schema

variable {record : Record}

theorem names_cons {name : String} {tag : FieldTag} {rest : Schema} :
    (cons name tag rest).names =
      if tag.constant? = none then name :: rest.names else rest.names := by
  unfold names
  rw [fields, List.filter_cons]
  cases tag.constant? <;> rfl

theorem Distinct.nodup : ∀ {schema : Schema}, schema.Distinct → schema.names.Nodup
  | .nil, _ => List.nodup_nil
  | .cons name tag rest, h => by
    rw [names_cons]
    split
    · next hc => exact List.nodup_cons.mpr ⟨h.1 hc, Distinct.nodup h.2.2⟩
    · exact Distinct.nodup h.2.2

/-- Under one name there is one field. -/
theorem tag_unique {schema : Schema} (h : schema.names.Nodup) {name : String} {tag tag' : FieldTag}
    (ht : (name, tag) ∈ schema.fields) (hc : tag.constant? = none)
    (ht' : (name, tag') ∈ schema.fields) (hc' : tag'.constant? = none) : tag = tag' := by
  have hmem {t : FieldTag} (hm : (name, t) ∈ schema.fields) (hn : t.constant? = none) :
      (name, t) ∈ schema.fields.filter fun field => field.2.constant?.isNone :=
    List.mem_filter.mpr ⟨hm, by rw [hn]; rfl⟩
  have hpair := List.inj_on_of_nodup_map h (hmem ht hc) (hmem ht' hc') rfl
  exact congrArg Prod.snd hpair

/-- What is loaded of a record has under each name what is loaded of the value there. -/
theorem reloads_norm {schema : Schema} (h : schema.Distinct) :
    schema.Reloads record (schema.norm record) := by
  intro name tag ht hc
  apply Option.ext
  intro value
  rw [get?_norm_eq_some_iff h.nodup, Option.map_eq_some_iff]
  constructor
  · rintro ⟨tag', ht', hc', v, hv, rfl⟩
    rw [tag_unique h.nodup ht hc ht' hc']
    exact ⟨v, hv, rfl⟩
  · rintro ⟨v, hv, rfl⟩
    exact ⟨tag, ht, hc, v, hv, rfl⟩

end Schema

/-! ## What is kept is stored alike -/

namespace FieldTag

variable {name : String} {value : Value} {width : Nat} {inner : FieldTag}

theorem store_norm_bits :
    (bits width).store name ((bits width).norm value) = (bits width).store name value := by
  cases value with
  | bits data =>
    by_cases h : 8 * data.length < width
    · -- too few bits are left as they are
      have htake : (Bits.ofBytes data).take width = Bits.ofBytes data :=
        List.take_of_length_le (by rw [Bits.length_ofBytes]; omega)
      rw [norm, htake, Bits.pack_ofBytes]
    · have hlen : ((Bits.ofBytes data).take width).length = width := by
        rw [List.length_take, Bits.length_ofBytes]
        omega
      have htake := Bits.take_ofBytes_pack ((Bits.ofBytes data).take width)
      rw [hlen] at htake
      simp only [norm, store, Builder.storeBits, Bits.length_pack, hlen, htake]
      rw [if_neg (by omega), if_neg h, if_neg (by omega), if_neg (by omega)]
  | _ => rfl

theorem store_norm_coins : coins.store name (coins.norm value) = coins.store name value := by
  cases value <;> rfl

theorem store_norm_address :
    address.store name (address.norm value) = address.store name value := by
  cases value with
  | address a => cases a <;> rfl
  | _ => rfl

theorem store_norm_dict :
    (dict width).store name ((dict width).norm value) = (dict width).store name value := by
  cases value with
  | none =>
    have hwidth : ¬ (Dictionary.empty width).width ≠ width := not_not.mpr rfl
    have hmap : (some (Dictionary.empty width)).mapM Dictionary.toCell? = .ok (some none) := by
      rw [Option.mapM_some, Dictionary.toCell?_empty]
      rfl
    rw [norm, store, if_neg hwidth, store, Builder.storeDictionary, hmap]
    rfl
  | _ => rfl

/-- Only a constant is loaded as none where a value was given. -/
theorem norm_ne_none : ∀ {inner : FieldTag}, inner.isConstant = false → ∀ {value : Value},
    value ≠ .none → inner.norm value ≠ .none
  | .maybe inner, hc, value, hv => by
    have hinner : inner.isConstant = false := hc
    rw [norm_maybe hv]
    exact norm_ne_none hinner hv
  | .ref payload, _, value, hv | .inline payload, _, value, hv | .either payload, _, value, hv => by
    change payload.norm value ≠ .none
    cases payload with
    | cell => exact hv
    | record schema => cases value <;> first | exact hv | nofun
  | .uint _, _, _, hv | .int _, _, _, hv | .bool, _, _, hv => hv
  | .bits _, _, value, hv | .coins, _, value, hv | .address, _, value, hv
  | .dict _, _, value, hv => by
    cases value <;> first | exact absurd rfl hv | nofun

/-- A constant is loaded as none. -/
theorem norm_eq_none : ∀ {inner : FieldTag}, inner.isConstant = true → ∀ {value : Value},
    inner.norm value = .none
  | .magic _ _, _, _ => rfl
  | .maybe inner, hc, value => by
    have hinner : inner.isConstant = true := hc
    by_cases hv : value = .none
    · subst hv
      rfl
    · rw [norm_maybe hv]
      exact norm_eq_none hinner

theorem store_norm_maybe (hk : (maybe inner).Keeps value)
    (h : inner.Keeps value → inner.store name (inner.norm value) = inner.store name value) :
    (maybe inner).store name ((maybe inner).norm value) = (maybe inner).store name value := by
  by_cases hv : value = .none
  · subst hv
    rfl
  · obtain ⟨hc, hinner⟩ := hk.resolve_left hv
    rw [norm_maybe hv, store_maybe hv, store_maybe (norm_ne_none hc hv), h hinner]

end FieldTag

/-- A payload of which what is loaded is stored as the payload was, inline and in a cell. -/
structure Payload.StoredAlike (payload : Payload) (name : String) (value : Value) : Prop where
  inline : payload.storeInline name (payload.norm value) = payload.storeInline name value
  cell : payload.toCell name (payload.norm value) = payload.toCell name value

theorem Payload.storedAlike_record {schema : Schema} {name : String} {value : Value}
    (h : ∀ record, value = .record record →
      schema.storeFields (schema.norm record) = schema.storeFields record) :
    (Payload.record schema).StoredAlike name value := by
  cases value with
  | record record =>
    have hfields : schema.storeFields (Record.ofList (schema.normFields record)) =
      schema.storeFields record := h record rfl
    constructor
    · simp only [Payload.norm, Payload.storeInline, hfields]
    · simp only [Payload.norm, Payload.toCell, hfields]
  | _ => exact ⟨rfl, rfl⟩

mutual
/-- **A value that is kept** is stored as it was. -/
theorem FieldTag.store_norm {name : String} : ∀ {tag : FieldTag}, tag.Distinct →
    ∀ {value : Value}, tag.Keeps value → tag.store name (tag.norm value) = tag.store name value
  | .uint _, _, _, _ | .int _, _, _, _ | .bool, _, _, _ | .magic _ _, _, _, _ => rfl
  | .bits _, _, _, _ => FieldTag.store_norm_bits
  | .coins, _, _, _ => FieldTag.store_norm_coins
  | .address, _, _, _ => FieldTag.store_norm_address
  | .dict _, _, _, _ => FieldTag.store_norm_dict
  | .maybe inner, hd, _, hk =>
    have hinner : inner.Distinct := hd
    FieldTag.store_norm_maybe hk (FieldTag.store_norm hinner)
  | .ref payload, hd, value, hk => by
    have hp : payload.StoredAlike name value := Payload.storedAlike hd hk
    simp only [FieldTag.norm, FieldTag.store, hp.cell]
  | .inline payload, hd, value, hk => by
    have hp : payload.StoredAlike name value := Payload.storedAlike hd hk
    simp only [FieldTag.norm, FieldTag.store, hp.inline]
  | .either payload, hd, value, hk => by
    have hp : payload.StoredAlike name value := Payload.storedAlike hd hk
    simp only [FieldTag.norm, FieldTag.store, hp.cell]

theorem Payload.storedAlike {name : String} : ∀ {payload : Payload}, payload.Distinct →
    ∀ {value : Value}, payload.Keeps value → payload.StoredAlike name value
  | .cell, _, _, _ => ⟨rfl, rfl⟩
  | .record schema, hd, _, hk =>
    have hs : schema.Distinct := hd
    Payload.storedAlike_record fun record h =>
      Schema.storeFields_eq hs (hk record h) (Schema.reloads_norm hs)

/-- **A record that is kept** is stored as it was. -/
theorem Schema.storeFields_eq : ∀ {schema : Schema}, schema.Distinct → ∀ {record loaded : Record},
    schema.Keeps record → schema.Reloads record loaded →
      schema.storeFields loaded = schema.storeFields record
  | .nil, _, _, _, _, _ => rfl
  | .cons name tag rest, hd, record, loaded, hk, hl => by
    have hrest : rest.storeFields loaded = rest.storeFields record :=
      Schema.storeFields_eq hd.2.2 hk.2 fun n t ht => hl n t (List.mem_cons_of_mem _ ht)
    rw [Schema.storeFields, Schema.storeFields, hrest]
    cases hc : tag.constant? with
    | some constant => rfl
    | none =>
      rw [hl name tag List.mem_cons_self hc]
      cases hv : record.get? name with
      | none => rfl
      | some value =>
        simp only [Option.map_some]
        rw [FieldTag.store_norm hd.2.1 (hk.1 value hv)]
end

/-! ## Builders that part -/

namespace Builder

/-- Two builders hold what no further stores can make equal. -/
def Parted (b b' : Builder) : Prop :=
  ∀ bits bits' refs refs', b.bits ++ bits = b'.bits ++ bits' → b.refs ++ refs ≠ b'.refs ++ refs'

variable {b b' c c' : Builder}

theorem Parted.ne (h : Parted b b') : b ≠ b' := by
  rintro rfl
  exact h [] [] [] [] rfl rfl

/-- Two builders that part do so whatever is stored behind. -/
theorem Parted.append (h : Parted b b') (bits bits' : Bits) (refs refs' : List Cell) :
    Parted ⟨b.bits ++ bits, b.refs ++ refs⟩ ⟨b'.bits ++ bits', b'.refs ++ refs'⟩ := by
  intro more more' moreRefs moreRefs' hb hr
  simp only [List.append_assoc] at hb hr
  exact h _ _ _ _ hb hr

/-- Two builders that part do so behind the same. -/
theorem Parted.behind (h : Parted b b') (bits : Bits) (refs : List Cell) :
    Parted ⟨bits ++ b.bits, refs ++ b.refs⟩ ⟨bits ++ b'.bits, refs ++ b'.refs⟩ := by
  intro more more' moreRefs moreRefs' hb hr
  rw [List.append_assoc, List.append_assoc, List.append_cancel_left_eq] at hb hr
  exact h _ _ _ _ hb hr

/-- Two builders part at a bit. -/
theorem parted_of_bit {front bits bits' : Bits} {refs refs' : List Cell} {bit bit' : Bool}
    (h : bit ≠ bit') : Parted ⟨front ++ bit :: bits, refs⟩ ⟨front ++ bit' :: bits', refs'⟩ := by
  intro more more' _ _ hb _
  rw [List.append_assoc, List.append_assoc, List.append_cancel_left_eq] at hb
  exact h (List.cons.inj hb).1

/-- Two builders part at a reference. -/
theorem parted_of_ref {front : List Cell} {bits bits' : Bits} {ref ref' : Cell} (h : ref ≠ ref') :
    Parted ⟨bits, front ++ [ref]⟩ ⟨bits', front ++ [ref']⟩ := by
  intro _ _ more more' _ hr
  rw [List.append_assoc, List.append_assoc, List.append_cancel_left_eq] at hr
  exact h (List.cons.inj hr).1

end Builder

/-! ## Stores only append -/

/-- Where a store succeeds, it leaves in place what was stored before. -/
def Builder.Extends (store : Store) : Prop :=
  Appends store fun _ _ => True

section

open Builder

variable {name : String} {value : Value}

theorem Builder.Appends.extends {store : Store} {form : Bits → List Cell → Prop}
    (h : Appends store form) : Extends store :=
  h.mono fun _ _ _ => trivial

theorem Builder.ReadsBack.extends {α : Type} {store : Store} {load : Load α} {a : α}
    (h : ReadsBack store load true a) : Extends store :=
  Appends.extends h

theorem Builder.Extends.bind {first : Store} {next : Unit → Store} (hf : Extends first)
    (hn : Extends (next ())) : Extends (first >>= next) :=
  Appends.bind hf hn fun _ _ _ _ _ _ => trivial

theorem Builder.Parted.extend {first second : Store} {b b' c c' : Builder} (h : Parted b b')
    (hf : Extends first) (hs : Extends second) (hc : first b = .ok () c)
    (hc' : second b' = .ok () c') : Parted c c' := by
  obtain ⟨bits, refs, rfl, -⟩ := hf b c hc
  obtain ⟨bits', refs', rfl, -⟩ := hs b' c' hc'
  exact h.append bits bits' refs refs'

theorem Builder.extends_either (payload : Cell) : Extends (storeEither payload) := by
  refine checks_get.bind fun b _ => ?_
  split
  · have hcell : Extends (storeCell payload) := appends_cell fun _ => trivial
    exact (writes_append [false]).extends.bind hcell
  · exact appends_append trivial

theorem FieldTag.extends_dict {width : Nat} : Extends ((FieldTag.dict width).store name value) := by
  have hstore (d : Option Dictionary) : Extends (storeDictionary d) :=
    (checks_ofExcept _).bind fun root _ => (readsBack_maybeRef root.join).extends
  cases value with
  | dict d =>
    unfold FieldTag.store
    dsimp only
    split
    · exact appends_throw _
    · exact hstore _
  | none => exact hstore none
  | _ => exact appends_throw _

theorem FieldTag.extends_maybe {inner : FieldTag} (h : Extends (inner.store name value)) :
    Extends ((FieldTag.maybe inner).store name value) := by
  by_cases hv : value = .none
  · subst hv
    exact appends_append trivial
  · rw [FieldTag.store_maybe hv]
    exact (writes_append [true]).extends.bind h

mutual
theorem FieldTag.extends_store {name : String} : ∀ {tag : FieldTag}, tag.Sound → ∀ value,
    Extends (tag.store name value)
  | .uint _, _, _ => FieldTag.readsBack_uint.extends
  | .int _, _, _ => FieldTag.readsBack_int.extends
  | .bits _, _, _ => FieldTag.readsBack_bits.extends
  | .bool, _, _ => FieldTag.readsBack_bool.extends
  | .coins, _, _ => FieldTag.readsBack_coins.extends
  | .address, _, _ => FieldTag.readsBack_address.extends
  | .magic _ _, hs, _ => (appends_word _ hs).extends
  | .ref _, _, _ => (checks_ofExcept _).bind fun _ _ => appends_append trivial
  | .inline payload, hs, value =>
    have hp : payload.Sound := hs
    Payload.extends_storeInline hp value
  | .either _, _, _ => (checks_ofExcept _).bind fun cell _ => extends_either cell
  | .maybe inner, hs, value =>
    have hinner : inner.Sound := hs
    FieldTag.extends_maybe (FieldTag.extends_store hinner value)
  | .dict _, _, _ => FieldTag.extends_dict

theorem Payload.extends_storeInline {name : String} : ∀ {payload : Payload}, payload.Sound →
    ∀ value, Extends (payload.storeInline name value)
  | .cell, _, value => by
    cases value with
    | cell cell => exact appends_cell fun _ => trivial
    | _ => exact appends_throw _
  | .record schema, hs, value => by
    have hschema : schema.Sound := hs
    cases value with
    | record record => exact (Schema.extends_storeFields hschema record).atomically
    | _ => exact appends_throw _

theorem Schema.extends_storeFields : ∀ {schema : Schema}, schema.Sound → ∀ record,
    Extends (schema.storeFields record)
  | .nil, _, _ => appends_pure trivial
  | .cons name tag rest, hs, record => by
    have hrest := Schema.extends_storeFields hs.2.2 record
    rw [Schema.storeFields]
    cases hc : tag.constant? with
    | some constant =>
      obtain rfl := FieldTag.constant?_eq_some_iff.mp hc
      exact (appends_word _ hs.1).extends.bind hrest
    | none =>
      cases hv : record.get? name with
      | none => exact appends_throw_bind _
      | some value => exact Extends.bind (FieldTag.extends_store hs.1 value) hrest
end

end

/-! ## What is not kept parts the builders -/

section

open Builder

variable {name : String} {value : Value} {b c c' : Builder}

theorem Builder.run_ofExcept_bind {α : Type} {x : Except CellError α} {next : α → Store} :
    (ofExcept x >>= next) b = .ok () c ↔ ∃ a, x = .ok a ∧ next a b = .ok () c := by
  cases x with
  | ok a => exact ⟨fun h => ⟨a, rfl, h⟩, fun ⟨_, ha, h⟩ => by cases ha; exact h⟩
  | error e => exact ⟨nofun, nofun⟩

theorem Builder.atomically_eq_ok_iff {store : Store} :
    atomically store b = .ok () c ↔ store b = .ok () c := by
  unfold atomically
  cases store b <;> simp

theorem Builder.storeBit_eq_ok {bit : Bool} (h : storeBit bit b = .ok () c) :
    c = ⟨b.bits ++ [bit], b.refs⟩ := by
  rw [(append_eq_ok_iff.mp h).2, List.append_nil]

theorem Builder.storeEither_cases {payload : Cell} (h : storeEither payload b = .ok () c) :
    c = ⟨b.bits ++ false :: payload.bits, b.refs ++ payload.refs⟩ ∨
      c = ⟨b.bits ++ [true], b.refs ++ [payload]⟩ := by
  obtain ⟨_, _, ⟨⟩, h⟩ := run_bind_eq_ok_iff.mp h
  split at h
  · obtain ⟨_, _, hbit, hcell⟩ := run_bind_eq_ok_iff.mp h
    obtain rfl := storeBit_eq_ok hbit
    unfold storeCell at hcell
    split at hcell
    · cases hcell
    · left
      rw [(append_eq_ok_iff.mp hcell).2, List.append_assoc]
      rfl
  · exact .inr (append_eq_ok_iff.mp h).2

/-- Cells of different contents part the builders in which they are stored, wherever they go. -/
theorem Builder.Parted.either {payload payload' : Cell}
    (h : Parted ⟨payload.bits, payload.refs⟩ ⟨payload'.bits, payload'.refs⟩)
    (hc : storeEither payload b = .ok () c) (hc' : storeEither payload' b = .ok () c') :
    Parted c c' := by
  have hne : payload ≠ payload' := by
    rintro rfl
    exact h.ne rfl
  rcases storeEither_cases hc with rfl | rfl <;> rcases storeEither_cases hc' with rfl | rfl
  · have hinline := h.behind (b.bits ++ [false]) b.refs
    rwa [List.append_assoc, List.append_assoc] at hinline
  · exact parted_of_bit Bool.false_ne_true
  · exact parted_of_bit Bool.false_ne_true.symm
  · exact parted_of_ref hne

/-- A payload of which what is loaded parts the builders, inline and in a cell. -/
structure Payload.Parts (payload : Payload) (name : String) (value : Value) : Prop where
  inline : ∀ {b c c'}, payload.storeInline name value b = .ok () c →
    payload.storeInline name (payload.norm value) b = .ok () c' → Parted c c'
  cell : ∀ {cell cell'}, payload.toCell name value = .ok cell →
    payload.toCell name (payload.norm value) = .ok cell' →
      Parted ⟨cell.bits, cell.refs⟩ ⟨cell'.bits, cell'.refs⟩

theorem Payload.parts_record {schema : Schema} {record : Record}
    (h : ∀ {b c c'}, schema.storeFields record b = .ok () c →
      schema.storeFields (schema.norm record) b = .ok () c' → Parted c c') :
    (Payload.record schema).Parts name (.record record) := by
  constructor
  · intro b c c' hc hc'
    exact h (atomically_eq_ok_iff.mp hc) (atomically_eq_ok_iff.mp hc')
  · intro cell cell' hcell hcell'
    obtain ⟨d, hd, hmake⟩ := bind_eq_ok_iff.mp hcell
    obtain ⟨d', hd', hmake'⟩ := bind_eq_ok_iff.mp hcell'
    rw [Cell.bits_make hmake, Cell.refs_make hmake, Cell.bits_make hmake', Cell.refs_make hmake']
    exact h (run_eq_ok_iff.mp hd) (run_eq_ok_iff.mp hd')

theorem FieldTag.parted_maybe {inner : FieldTag} (hs : inner.Sound)
    (h : ∀ {b c c'}, ¬ inner.Keeps value → inner.store name value b = .ok () c →
      inner.store name (inner.norm value) b = .ok () c' → Parted c c')
    (hk : ¬ (FieldTag.maybe inner).Keeps value)
    (hc : (FieldTag.maybe inner).store name value b = .ok () c)
    (hc' : (FieldTag.maybe inner).store name ((FieldTag.maybe inner).norm value) b = .ok () c') :
    Parted c c' := by
  obtain ⟨hv, hk⟩ := not_or.mp hk
  rw [store_maybe hv] at hc
  obtain ⟨_, d, hbit, hinner⟩ := run_bind_eq_ok_iff.mp hc
  obtain rfl := storeBit_eq_ok hbit
  rw [norm_maybe hv] at hc'
  cases hconst : inner.isConstant with
  | true =>
    -- the constant is loaded as none, so the field is stored as absent
    rw [norm_eq_none hconst] at hc'
    obtain rfl := storeBit_eq_ok hc'
    obtain ⟨bits, refs, rfl, -⟩ := extends_store hs value _ _ hinner
    rw [List.append_assoc]
    exact parted_of_bit Bool.false_ne_true.symm
  | false =>
    rw [store_maybe (norm_ne_none hconst hv)] at hc'
    obtain ⟨_, d', hbit', hinner'⟩ := run_bind_eq_ok_iff.mp hc'
    obtain rfl := storeBit_eq_ok hbit'
    exact h (fun hkeeps => hk ⟨hconst, hkeeps⟩) hinner hinner'

end

mutual
/-- **A value that is not kept** parts the builders, wherever it is stored and loaded again. -/
theorem FieldTag.parted {name : String} : ∀ {tag : FieldTag}, tag.Sound → tag.Distinct →
    ∀ {value : Value} {b c c' : Builder}, ¬ tag.Keeps value → tag.store name value b = .ok () c →
      tag.store name (tag.norm value) b = .ok () c' → c.Parted c'
  | .maybe inner, hs, hd, _, _, _, _, hk, hc, hc' =>
    have hsound : inner.Sound := hs
    have hdistinct : inner.Distinct := hd
    FieldTag.parted_maybe hsound (FieldTag.parted hsound hdistinct) hk hc hc'
  | .ref payload, hs, hd, value, _, _, _, hk, hc, hc' => by
    have hp : payload.Parts name value := Payload.parts hs hd hk
    obtain ⟨cell, hcell, hc⟩ := Builder.run_ofExcept_bind.mp hc
    obtain ⟨cell', hcell', hc'⟩ := Builder.run_ofExcept_bind.mp hc'
    have hparted := hp.cell hcell hcell'
    rw [(Builder.append_eq_ok_iff.mp hc).2, (Builder.append_eq_ok_iff.mp hc').2]
    apply Builder.parted_of_ref
    rintro rfl
    exact hparted.ne rfl
  | .inline payload, hs, hd, value, _, _, _, hk, hc, hc' =>
    have hp : payload.Parts name value := Payload.parts hs hd hk
    hp.inline hc hc'
  | .either payload, hs, hd, value, _, _, _, hk, hc, hc' => by
    have hp : payload.Parts name value := Payload.parts hs hd hk
    obtain ⟨cell, hcell, hc⟩ := Builder.run_ofExcept_bind.mp hc
    obtain ⟨cell', hcell', hc'⟩ := Builder.run_ofExcept_bind.mp hc'
    exact (hp.cell hcell hcell').either hc hc'
  | .uint _, _, _, _, _, _, _, hk, _, _ | .int _, _, _, _, _, _, _, hk, _, _
  | .bits _, _, _, _, _, _, _, hk, _, _ | .bool, _, _, _, _, _, _, hk, _, _
  | .coins, _, _, _, _, _, _, hk, _, _ | .address, _, _, _, _, _, _, hk, _, _
  | .magic _ _, _, _, _, _, _, _, hk, _, _ | .dict _, _, _, _, _, _, _, hk, _, _ =>
    absurd trivial hk

theorem Payload.parts {name : String} : ∀ {payload : Payload}, payload.Sound → payload.Distinct →
    ∀ {value : Value}, ¬ payload.Keeps value → payload.Parts name value
  | .cell, _, _, _, hk => absurd trivial hk
  | .record schema, hs, hd, value, hk => by
    have hsound : schema.Sound := hs
    have hdistinct : schema.Distinct := hd
    obtain ⟨record, rfl, hrecord⟩ :
        ∃ record, value = .record record ∧ ¬ schema.Keeps record := by
      simpa [Payload.Keeps] using hk
    exact Payload.parts_record fun hc hc' =>
      Schema.parted hsound hdistinct (Schema.reloads_norm hdistinct) hrecord hc hc'

/-- **A record that is not kept** parts the builders. -/
theorem Schema.parted : ∀ {schema : Schema}, schema.Sound → schema.Distinct →
    ∀ {record loaded : Record}, schema.Reloads record loaded → ¬ schema.Keeps record →
      ∀ {b c c' : Builder}, schema.storeFields record b = .ok () c →
        schema.storeFields loaded b = .ok () c' → c.Parted c'
  | .nil, _, _, _, _, _, hk, _, _, _, _, _ => absurd trivial hk
  | .cons name tag rest, hs, hd, record, loaded, hl, hk, b, c, c', hc, hc' => by
    have hlrest : rest.Reloads record loaded := fun n t ht => hl n t (List.mem_cons_of_mem _ ht)
    -- while values are kept, the two builders are one
    have hstep {d : Builder} (hr : rest.storeFields record d = .ok () c)
        (hr' : rest.storeFields loaded d = .ok () c') (hkeeps : ¬ rest.Keeps record) :
        c.Parted c' :=
      Schema.parted hs.2.2 hd.2.2 hlrest hkeeps hr hr'
    rw [Schema.storeFields] at hc hc'
    cases hconst : tag.constant? with
    | some constant =>
      obtain rfl := FieldTag.constant?_eq_some_iff.mp hconst
      obtain ⟨_, d, hfirst, hrest⟩ := run_bind_eq_ok_iff.mp hc
      obtain ⟨_, d', hfirst', hrest'⟩ := run_bind_eq_ok_iff.mp hc'
      cases hfirst.symm.trans hfirst'
      exact hstep hrest hrest' fun hkeeps => hk ⟨fun _ _ => trivial, hkeeps⟩
    | none =>
      simp only [hconst, hl name tag List.mem_cons_self hconst] at hc hc'
      cases hv : record.get? name with
      | none =>
        simp only [hv] at hc
        cases hc
      | some value =>
        simp only [hv, Option.map_some] at hc hc'
        obtain ⟨_, d, hfirst, hrest⟩ := run_bind_eq_ok_iff.mp hc
        obtain ⟨_, d', hfirst', hrest'⟩ := run_bind_eq_ok_iff.mp hc'
        by_cases hkeeps : tag.Keeps value
        · rw [FieldTag.store_norm hd.2.1 hkeeps] at hfirst'
          cases hfirst.symm.trans hfirst'
          refine hstep hrest hrest' fun hkrest => hk ⟨?_, hkrest⟩
          intro found hfound
          cases hv.symm.trans hfound
          exact hkeeps
        · exact (FieldTag.parted hs.1 hd.2.1 hkeeps hfirst hfirst').extend
            (Schema.extends_storeFields hs.2.2 record) (Schema.extends_storeFields hs.2.2 loaded)
            hrest hrest'
end

/-! ## All together -/

/-- **What is loaded is stored again.** Let a record of made cells and dictionaries be stored in a
cell by a schema that was built, the names at each depth being distinct. Then a record is loaded
from the cell, and it is stored in the same cell again exactly when no constant was present behind a
presence bit; so it always is by a schema without optional constants. -/
theorem Schema.toCell_ofCell {schema : Schema} (built : schema.Built) (distinct : schema.Distinct)
    {record : Record} (valid : record.Valid) {cell : Cell} (h : schema.toCell record = .ok cell) :
    ∃ loaded, schema.ofCell cell = .ok loaded ∧
      (schema.toCell loaded = .ok cell ↔ schema.Keeps record) ∧
      (schema.Definite → schema.toCell loaded = .ok cell) := by
  have hload : schema.ofCell cell = .ok (schema.norm record) :=
    ReadsBack.parse (Builder.Appends.atomically (Schema.readsBack_fields built.sound valid .nil)) h
  have hkept (hk : schema.Keeps record) : schema.toCell (schema.norm record) = .ok cell := by
    rw [← h, toCell, toCell, store, store,
      Schema.storeFields_eq distinct hk (Schema.reloads_norm distinct)]
  refine ⟨schema.norm record, hload, ⟨?_, hkept⟩, fun hd => hkept (hd.keeps record)⟩
  intro hagain
  by_contra hk
  obtain ⟨b, hb, hmake⟩ := bind_eq_ok_iff.mp h
  obtain ⟨b', hb', hmake'⟩ := bind_eq_ok_iff.mp hagain
  have hparted : b.Parted b' := Schema.parted built.sound distinct (Schema.reloads_norm distinct) hk
    (Builder.atomically_eq_ok_iff.mp (Builder.run_eq_ok_iff.mp hb))
    (Builder.atomically_eq_ok_iff.mp (Builder.run_eq_ok_iff.mp hb'))
  -- the two builders would hold what the one cell holds
  apply hparted.ne
  obtain ⟨bits, refs⟩ := b
  obtain ⟨bits', refs'⟩ := b'
  rw [Builder.mk.injEq]
  exact ⟨(Cell.bits_make hmake).symm.trans (Cell.bits_make hmake'),
    (Cell.refs_make hmake).symm.trans (Cell.refs_make hmake')⟩

theorem distinct_letterSchema : letterSchema.Distinct := by
  have hnote : noteSchema.Distinct := ⟨fun _ => List.not_mem_nil, trivial, trivial⟩
  refine ⟨nofun, trivial, ?_, trivial, ?_, trivial, ?_, trivial, ?_, hnote, ?_, trivial,
      trivial⟩ <;>
    exact fun _ => by decide

/-- A letter without a seal. -/
def openLetter : Record := letter.set "sealed" .none

/-- The seal of a letter is lost when the letter is stored again, and nothing else is. -/
theorem Schema.toCell_ofCell_letter :
    (∃ cell loaded, letterSchema.toCell letter = .ok cell ∧
      letterSchema.ofCell cell = .ok loaded ∧ letterSchema.toCell loaded ≠ .ok cell) ∧
    ∃ cell loaded, letterSchema.toCell openLetter = .ok cell ∧
      letterSchema.ofCell cell = .ok loaded ∧ letterSchema.toCell loaded = .ok cell := by
  have hnone : Value.none.Valid := trivial
  have hvalid : openLetter.Valid := Record.Valid.set hnone valid_letter
  have hlost : ¬ letterSchema.Keeps letter := by
    intro h
    have hseal : (FieldTag.maybe (.magic 1 1)).Keeps (.bool true) := h.2.2.2.1 _ rfl
    exact hseal.elim nofun fun hconst => nomatch hconst.1
  have hnote : noteSchema.Definite := ⟨trivial, trivial⟩
  have hkept : letterSchema.Keeps openLetter :=
    ⟨fun _ _ => trivial, fun _ _ => trivial, fun _ _ => trivial,
      fun _ h => .inl (Option.some.inj h).symm, fun _ _ => .inr ⟨rfl, fun r _ => hnote.keeps r⟩,
      fun _ _ => trivial, trivial⟩
  obtain ⟨cell, hcell⟩ : ∃ cell, letterSchema.toCell letter = .ok cell := ⟨_, rfl⟩
  obtain ⟨cell', hcell'⟩ : ∃ cell, letterSchema.toCell openLetter = .ok cell := ⟨_, rfl⟩
  obtain ⟨loaded, hloaded, hagain, -⟩ :=
    Schema.toCell_ofCell built_letterSchema distinct_letterSchema valid_letter hcell
  obtain ⟨loaded', hloaded', hagain', -⟩ :=
    Schema.toCell_ofCell built_letterSchema distinct_letterSchema hvalid hcell'
  exact ⟨⟨cell, loaded, hcell, hloaded, fun h => hlost (hagain.mp h)⟩,
    cell', loaded', hcell', hloaded', hagain'.mpr hkept⟩

end BagOfCells
