import BagOfCells.Proofs.Dictionary.ReadBack
import BagOfCells.Schema.Store
import Mathlib.Data.List.Nodup

/-!
# What is loaded of a record

A schema loads of a record the fields that are no constants, each in a form its tag determines: a
few values are stored alike and loaded as one of them. If the names of the fields are distinct, what
is found under each name is loaded of what the record has under it, and under no other name anything
is found.

## Main definitions

* `Value.Valid`, `Record.Valid`: the cells and dictionaries of a record are as they are made
* `FieldTag.norm`, `Payload.norm`, `Schema.norm`: what is loaded of a value and of a record
* `Schema.names`: the names of the fields that are no constants

## Main results

* `Schema.get?_norm_eq_some_iff`: what is found in a record that is loaded
-/

namespace BagOfCells

mutual
/-- The cells and dictionaries of a value are as they are made. -/
def Value.Valid : Value → Prop
  | .cell cell => cell.Made
  | .record record => record.Valid
  | .dict d => d.Valid
  | .none | .uint _ | .int _ | .bits _ | .bool _ | .coins _ | .address _ => True

/-- The values of a record are as they are made. -/
def Record.Valid : Record → Prop
  | .nil => True
  | .cons _ value rest => value.Valid ∧ rest.Valid
end

theorem Record.Valid.get? {name : String} {value : Value} :
    ∀ {record : Record}, record.Valid → record.get? name = some value → value.Valid
  | .cons n v rest, h, hv => by
    rw [Record.get?] at hv
    split at hv
    · cases hv
      exact h.1
    · exact h.2.get? hv

theorem Record.Valid.set {name : String} {value : Value} (hv : value.Valid) :
    ∀ {record : Record}, record.Valid → (record.set name value).Valid
  | .nil, _ => ⟨hv, trivial⟩
  | .cons n v rest, h => by
    rw [Record.set]
    split
    · exact ⟨hv, h⟩
    split
    · exact ⟨hv, h.2⟩
    · exact ⟨h.1, Record.Valid.set hv h.2⟩

/-! ## What is loaded -/

mutual
/-- What is loaded of a value: an amount for a number in the place of one, no address and the empty
dictionary for none, bits cut to their count with the tail zero, an address without its flags, and
nothing for a constant. -/
def FieldTag.norm : FieldTag → Value → Value
  | .bits width, value => match value with
    | .bits data => .bits (Bits.pack ((Bits.ofBytes data).take width))
    | value => value
  | .coins, value => match value with
    | .uint amount => .coins amount
    | value => value
  | .address, value => match value with
    | .address address => .address (address.map Address.plain)
    | .none => .address none
    | value => value
  | .magic _ _, _ => .none
  | .ref payload, value | .inline payload, value | .either payload, value => payload.norm value
  | .maybe inner, value => match value with
    | .none => .none
    | value => inner.norm value
  | .dict width, value => match value with
    | .none => .dict (.empty width)
    | value => value
  | .uint _, value | .int _, value | .bool, value => value

/-- What is loaded of what a payload holds. -/
def Payload.norm : Payload → Value → Value
  | .cell, value => value
  | .record schema, value => match value with
    | .record record => .record (Record.ofList (schema.normFields record))
    | value => value

/-- The fields of a schema that are no constants, with what is loaded of their values. -/
def Schema.normFields : Schema → Record → List (String × Value)
  | .nil, _ => []
  | .cons name tag rest, record => match tag.constant?, record.get? name with
    | none, some value => (name, tag.norm value) :: rest.normFields record
    | _, _ => rest.normFields record
end

/-- What is loaded of a record. -/
def Schema.norm (schema : Schema) (record : Record) : Record :=
  Record.ofList (schema.normFields record)

theorem FieldTag.constant?_eq_some_iff {tag : FieldTag} {constant : UInt64 × Nat} :
    tag.constant? = some constant ↔ tag = .magic constant.1 constant.2 := by
  cases tag <;> simp [FieldTag.constant?, Prod.ext_iff]

/-! ## By name -/

theorem Record.get?_set {name found : String} {value : Value} : ∀ {record : Record},
    (record.set name value).get? found = if name = found then some value else record.get? found
  | .nil => rfl
  | .cons n v rest => by
    rw [Record.set]
    split
    · rfl
    split
    · next h =>
      subst h
      rw [Record.get?, Record.get?]
      split <;> rfl
    · next h =>
      rw [Record.get?, Record.get?, Record.get?_set]
      by_cases hn : n = found
      · rw [if_pos hn, if_pos hn, if_neg fun he => h (he.trans hn.symm)]
      · rw [if_neg hn, if_neg hn]

/-- A record with some values put in, one after the other. -/
def Record.setAll (record : Record) (values : List (String × Value)) : Record :=
  values.foldl (fun record (name, value) => record.set name value) record

/-- Values put in under distinct names are found under them. -/
theorem Record.get?_setAll_eq_some_iff {values : List (String × Value)}
    (hn : (values.map Prod.fst).Nodup) {record : Record} {name : String} {value : Value} :
    (record.setAll values).get? name = some value ↔
      (name, value) ∈ values ∨ name ∉ values.map Prod.fst ∧ record.get? name = some value := by
  induction values generalizing record with
  | nil => simp [Record.setAll]
  | cons first rest ih =>
    obtain ⟨n, v⟩ := first
    obtain ⟨hfirst, hrest⟩ := List.nodup_cons.mp hn
    change ((record.set n v).setAll rest).get? name = some value ↔ _
    rw [ih hrest, Record.get?_set]
    by_cases h : n = name
    · subst h
      have hne (v : Value) : (n, v) ∉ rest := fun hmem =>
        hfirst (List.mem_map.mpr ⟨_, hmem, rfl⟩)
      simp [hne, eq_comm]
    · have h' : name ≠ n := Ne.symm h
      simp [h, h']

namespace Schema

/-- The names of the fields that are no constants. -/
def names (schema : Schema) : List String :=
  (schema.fields.filter fun field => field.2.constant?.isNone).map Prod.fst

variable {record : Record}

theorem normFields_cons {name : String} {tag : FieldTag} {rest : Schema} :
    (cons name tag rest).normFields record =
      (if tag.constant? = none then
        ((record.get? name).map fun value => (name, tag.norm value)).toList else []) ++
        rest.normFields record := by
  rw [normFields]
  cases tag.constant? <;> cases record.get? name <;> rfl

theorem mem_normFields_iff {name : String} {value : Value} : ∀ {schema : Schema},
    (name, value) ∈ schema.normFields record ↔ ∃ tag, (name, tag) ∈ schema.fields ∧
      tag.constant? = none ∧ ∃ v, record.get? name = some v ∧ value = tag.norm v
  | .nil => by simp [normFields, fields]
  | .cons n t rest => by
    rw [normFields_cons, List.mem_append, mem_normFields_iff, fields]
    simp only [List.mem_cons, or_and_right, exists_or, Prod.mk.injEq]
    refine or_congr_left ?_
    constructor
    · intro h
      split at h
      · next hc =>
        obtain ⟨v, hv, heq⟩ : ∃ v, record.get? n = some v ∧ (n, t.norm v) = (name, value) := by
          simpa using h
        cases heq
        exact ⟨t, ⟨rfl, rfl⟩, hc, v, hv, rfl⟩
      · cases h
    · rintro ⟨_, ⟨rfl, rfl⟩, hc, v, hv, rfl⟩
      simp [hc, hv]

theorem names_normFields : ∀ schema : Schema,
    ((schema.normFields record).map Prod.fst).Sublist schema.names
  | .nil => .refl _
  | .cons n t rest => by
    have ih := names_normFields rest
    cases hc : t.constant? with
    | some constant => simpa [normFields_cons, names, fields, hc] using ih
    | none =>
      cases hv : record.get? n with
      | none => simpa [normFields_cons, names, fields, hc, hv] using ih.cons n
      | some v => simpa [normFields_cons, names, fields, hc, hv] using ih

/-- **What is found in a record that is loaded**, if the fields have distinct names. -/
theorem get?_norm_eq_some_iff {schema : Schema} (h : schema.names.Nodup) {name : String}
    {value : Value} :
    (schema.norm record).get? name = some value ↔ ∃ tag, (name, tag) ∈ schema.fields ∧
      tag.constant? = none ∧ ∃ v, record.get? name = some v ∧ value = tag.norm v := by
  rw [← mem_normFields_iff]
  refine (Record.get?_setAll_eq_some_iff (h.sublist (names_normFields schema))).trans ?_
  simp [Record.get?]

end Schema

end BagOfCells
