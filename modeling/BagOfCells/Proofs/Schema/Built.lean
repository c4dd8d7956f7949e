import BagOfCells.Proofs.Outcome
import BagOfCells.Schema.Tag

/-!
# Schemas that can be built

A schema is built field by field, from the texts of its tags and from schemas built before. Whatever
is built keeps a few limits: constants fit a machine word, keys of dictionaries fit a cell, and only
the last field takes the rest of the cell, at every depth of nesting.

## Main definitions

* `Schema.Built`: a schema made by adding fields to the empty one
* `FieldTag.Sound`, `Payload.Sound`, `Schema.Sound`: the limits

## Main results

* `FieldTag.sound_of_parse`: the tag of a text keeps the limits
* `Schema.Built.sound`: a schema that is built keeps them
-/

namespace BagOfCells

open Outcome

/-- A schema made by adding fields to the empty one. -/
inductive Schema.Built : Schema → Prop where
  | nil : Built .nil
  | field {schema schema' : Schema} {name tag : String} (built : Built schema)
      (h : schema.field name tag = .ok schema') : Built schema'
  | nested {schema inner schema' : Schema} {name tag : String} (built : Built schema)
      (builtInner : Built inner) (h : schema.nested name tag inner = .ok schema') : Built schema'
  | eitherNested {schema inner schema' : Schema} {name : String} (built : Built schema)
      (builtInner : Built inner) (h : schema.eitherNested name inner = .ok schema') : Built schema'

mutual
/-- The limits a tag keeps. -/
def FieldTag.Sound : FieldTag → Prop
  | .magic _ width => width ≤ 64
  | .dict width => width ≤ Cell.maxBits
  | .ref payload | .inline payload | .either payload => payload.Sound
  | .maybe inner => inner.Sound
  | .uint _ | .int _ | .bits _ | .bool | .coins | .address => True

/-- The limits a payload keeps. -/
def Payload.Sound : Payload → Prop
  | .cell => True
  | .record schema => schema.Sound

/-- The tags of a schema keep their limits, and no field follows one that takes the rest. -/
def Schema.Sound : Schema → Prop
  | .nil => True
  | .cons _ tag rest => tag.Sound ∧ (rest ≠ .nil → tag.takesRest = false) ∧ rest.Sound
end

/-! ## Tags -/

namespace FieldTag

theorem parseWidth_le {text : List Char} {width : Nat} (h : parseWidth text = .ok width) :
    width ≤ Cell.maxBits := by
  unfold parseWidth at h
  split at h
  · cases h
  · split at h
    · cases h
    · next hw =>
      cases h
      exact Nat.not_lt.mp hw

theorem sound_of_parseConstant {digits : List Char} {base bitsPerDigit : Nat} {tag : FieldTag}
    (h : parseConstant digits base bitsPerDigit = .ok tag) : tag.Sound := by
  simp only [parseConstant] at h
  split at h
  · cases h
  · next hw =>
    split at h
    · cases h
      exact Nat.not_lt.mp (not_or.mp hw).2
    · cases h

theorem sound_of_parseWords {words : List (List Char)} {tag : FieldTag}
    (h : parseWords words = .ok tag) : tag.Sound := by
  fun_induction parseWords words generalizing tag with
  | case1 word words ih =>
    obtain ⟨inner, hinner, rfl⟩ := map_eq_ok_iff.mp h
    exact (ih hinner : inner.Sound)
  | case2 | case3 | case4 =>
    obtain ⟨width, -, rfl⟩ := map_eq_ok_iff.mp h
    trivial
  | case5 text =>
    obtain ⟨width, hwidth, rfl⟩ := map_eq_ok_iff.mp h
    exact parseWidth_le hwidth
  | case6 | case7 | case8 | case9 | case10 | case11 =>
    cases h
    trivial
  | case12 | case13 => exact sound_of_parseConstant h
  | case14 => cases h

/-- **The tag of a text** keeps its limits. -/
theorem sound_of_parse {text : String} {tag : FieldTag} (h : parse text = .ok tag) : tag.Sound := by
  unfold parse at h
  cases hwords : parseWords (Blank.words text.toList) with
  | ok found =>
    rw [hwords] at h
    cases h
    exact sound_of_parseWords hwords
  | error fault =>
    rw [hwords] at h
    cases h

/-- A sound schema in the place of a cell keeps the limits of the tag. -/
theorem sound_of_withRecord {schema : Schema} (hs : schema.Sound) :
    ∀ {tag tag' : FieldTag}, tag.withRecord schema = .ok tag' → tag'.Sound
  | .ref .cell, _, h | .inline .cell, _, h | .either .cell, _, h => by
    cases h
    exact hs
  | .maybe inner, _, h => by
    obtain ⟨inner', hinner, rfl⟩ := map_eq_ok_iff.mp h
    exact (sound_of_withRecord hs hinner : inner'.Sound)
  | .ref (.record _), _, h | .inline (.record _), _, h | .either (.record _), _, h
  | .uint _, _, h | .int _, _, h | .bits _, _, h | .bool, _, h | .coins, _, h | .address, _, h
  | .magic _ _, _, h | .dict _, _, h => nomatch h

end FieldTag

/-! ## Schemas -/

namespace Schema

variable {schema schema' inner : Schema} {name text : String} {tag : FieldTag}

/-- A field may follow where the last one does not take the rest. -/
theorem Sound.append : ∀ {schema : Schema}, schema.Sound → tag.Sound →
    (∀ last ∈ schema.fields.getLast?, last.2.takesRest = false) → (schema.append name tag).Sound
  | .nil, _, ht, _ => ⟨ht, fun hn => absurd rfl hn, trivial⟩
  | .cons _ _ .nil, h, ht, hlast =>
    ⟨h.1, fun _ => hlast _ rfl, ht, fun hn => absurd rfl hn, trivial⟩
  | .cons _ _ (.cons _ _ _), h, ht, hlast =>
    ⟨h.1, fun _ => h.2.1 nofun,
      h.2.2.append ht fun last hl => hlast last (List.getLast?_cons_cons.trans hl)⟩

theorem Sound.push (h : schema.Sound) (ht : tag.Sound)
    (hp : schema.push name tag = .ok schema') : schema'.Sound := by
  unfold Schema.push at hp
  split at hp
  · next last lastTag hlast =>
    split at hp
    · cases hp
    · next hrest =>
      cases hp
      refine h.append ht ?_
      intro found hfound
      rw [hlast] at hfound
      cases hfound
      exact Bool.eq_false_iff.mpr hrest
  · next hnone =>
    cases hp
    refine h.append ht ?_
    intro found hfound
    rw [hnone] at hfound
    cases hfound

/-- **A schema that is built** keeps the limits. -/
theorem Built.sound (h : schema.Built) : schema.Sound := by
  have hnested {schema inner schema' : Schema} {name text : String} (hs : schema.Sound)
      (hi : inner.Sound) (h : schema.nested name text inner = .ok schema') : schema'.Sound := by
    obtain ⟨cellTag, -, h⟩ := bind_eq_ok_iff.mp h
    obtain ⟨tag, htag, hpush⟩ := bind_eq_ok_iff.mp h
    exact hs.push (FieldTag.sound_of_withRecord hi htag) hpush
  induction h with
  | nil => trivial
  | field _ h ih =>
    obtain ⟨tag, htag, hpush⟩ := bind_eq_ok_iff.mp h
    exact ih.push (FieldTag.sound_of_parse htag) hpush
  | nested _ _ h ih ihInner => exact hnested ih ihInner h
  | eitherNested _ _ h ih ihInner => exact hnested ih ihInner h

end Schema

end BagOfCells
