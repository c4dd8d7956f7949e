import BagOfCells.Text.Blank
import Mathlib.Data.List.Basic

/-!
# Words of a text

A text is cut at its blanks into words. What that means is said without the cutting: the words stand
in the text in order, each of them without blanks in it, with blanks and nothing else around them.
There is only one such list of words.

## Main definitions

* `Blank.Splits text words`: a text consists of some words with blanks around them

## Main results

* `Blank.splits_words`, `Blank.Splits.words_eq`: the words of a text are those it consists of
* `Blank.Splits.mem_iff`: the words have all characters that are not blank
-/

namespace BagOfCells.Blank

/-- A text consists of some words with blanks around them: blanks only, or a word behind blanks,
which goes on until the next blank or the end, and the same for what is behind it. -/
inductive Splits : List Char → List (List Char) → Prop where
  | blank {gap : List Char} (blank : ∀ c ∈ gap, isBlank c = true) : Splits gap []
  | word {gap word rest : List Char} {words : List (List Char)}
      (blank : ∀ c ∈ gap, isBlank c = true) (nonempty : word ≠ [])
      (solid : ∀ c ∈ word, isBlank c = false) (ends : ∀ c ∈ rest.head?, isBlank c = true)
      (later : Splits rest words) : Splits (gap ++ word ++ rest) (word :: words)

variable {c : Char} {text word rest : List Char} {ws : List (List Char)}

/-- The characters of a text up to its first blank, and the words behind it. -/
def cut (text : List Char) : List Char × List (List Char) :=
  text.foldr
    (fun c (word, later) => if isBlank c then ([], consWord word later) else (c :: word, later))
    ([], [])

theorem words_eq_cut (text : List Char) : words text = consWord (cut text).1 (cut text).2 :=
  rfl

theorem cut_cons_of_blank (h : isBlank c = true) (text : List Char) :
    cut (c :: text) = ([], words text) := by
  change (if isBlank c = true then ([], words text) else (c :: (cut text).1, (cut text).2)) = _
  rw [if_pos h]

theorem cut_cons_of_solid (h : isBlank c = false) (text : List Char) :
    cut (c :: text) = (c :: (cut text).1, (cut text).2) := by
  change (if isBlank c = true then ([], words text) else (c :: (cut text).1, (cut text).2)) = _
  rw [h, if_neg Bool.false_ne_true]

theorem words_cons_of_blank (h : isBlank c = true) (text : List Char) :
    words (c :: text) = words text := by
  rw [words_eq_cut, cut_cons_of_blank h]
  rfl

/-! ## The words that are cut -/

theorem Splits.cons_blank (h : isBlank c = true) (hs : Splits text ws) :
    Splits (c :: text) ws := by
  cases hs with
  | blank blank => exact .blank (List.forall_mem_cons.mpr ⟨h, blank⟩)
  | word blank nonempty solid ends later =>
    exact .word (List.forall_mem_cons.mpr ⟨h, blank⟩) nonempty solid ends later

/-- A word with words behind it, where the first one may be empty. -/
theorem splits_consWord (htext : text = word ++ rest) (hsolid : ∀ c ∈ word, isBlank c = false)
    (hends : ∀ c ∈ rest.head?, isBlank c = true) (hrest : Splits rest ws) :
    Splits text (consWord word ws) := by
  subst htext
  rcases eq_or_ne word [] with rfl | hne
  · exact hrest
  · rw [consWord, if_neg (by rwa [List.isEmpty_iff])]
    exact .word (List.forall_mem_nil _) hne hsolid hends hrest

/-- What is behind the characters up to the first blank. -/
theorem splits_cut (text : List Char) :
    ∃ rest, text = (cut text).1 ++ rest ∧ (∀ c ∈ (cut text).1, isBlank c = false) ∧
      (∀ c ∈ rest.head?, isBlank c = true) ∧ Splits rest (cut text).2 := by
  induction text with
  | nil => exact ⟨[], rfl, nofun, nofun, .blank nofun⟩
  | cons c text ih =>
    obtain ⟨rest, htext, hsolid, hends, hrest⟩ := ih
    cases h : isBlank c with
    | true =>
      -- no word is begun at a blank: all words of the text are behind it
      have hwords : Splits text (words text) := splits_consWord htext hsolid hends hrest
      rw [cut_cons_of_blank h]
      refine ⟨c :: text, rfl, nofun, ?_, hwords.cons_blank h⟩
      rintro _ ⟨⟩
      exact h
    | false =>
      rw [cut_cons_of_solid h]
      refine ⟨rest, congrArg (c :: ·) htext, ?_, hends, hrest⟩
      exact List.forall_mem_cons.mpr ⟨h, hsolid⟩

/-- A text consists of its words. -/
theorem splits_words (text : List Char) : Splits text (words text) := by
  obtain ⟨rest, htext, hsolid, hends, hrest⟩ := splits_cut text
  exact splits_consWord htext hsolid hends hrest

/-! ## No other words -/

theorem words_append_of_blank {gap : List Char} (h : ∀ c ∈ gap, isBlank c = true)
    (text : List Char) : words (gap ++ text) = words text := by
  induction gap with
  | nil => rfl
  | cons c gap ih =>
    obtain ⟨hc, hgap⟩ := List.forall_mem_cons.mp h
    rw [List.cons_append, words_cons_of_blank hc, ih hgap]

theorem cut_append_of_solid (h : ∀ c ∈ word, isBlank c = false) (text : List Char) :
    cut (word ++ text) = (word ++ (cut text).1, (cut text).2) := by
  induction word with
  | nil => rfl
  | cons c word ih =>
    obtain ⟨hc, hword⟩ := List.forall_mem_cons.mp h
    rw [List.cons_append, cut_cons_of_solid hc, ih hword]
    rfl

/-- Nothing is cut off where a text begins with a blank or is over. -/
theorem cut_of_ends (h : ∀ c ∈ rest.head?, isBlank c = true) : cut rest = ([], words rest) := by
  cases rest with
  | nil => rfl
  | cons c rest =>
    have hc : isBlank c = true := h c rfl
    rw [cut_cons_of_blank hc, words_cons_of_blank hc]

theorem Splits.words_eq (h : Splits text ws) : words text = ws := by
  induction h with
  | @blank gap blank => rw [← List.append_nil gap, words_append_of_blank blank]; rfl
  | @word gap word rest ws blank nonempty solid ends _ ih =>
    -- the word is cut whole, since what is behind it cannot lengthen it
    rw [List.append_assoc, words_append_of_blank blank, words_eq_cut, cut_append_of_solid solid,
      cut_of_ends ends, List.append_nil, ih, consWord, if_neg]
    rwa [List.isEmpty_iff]

/-- A character that is not blank is in the words of a text if it is in the text. -/
theorem Splits.mem_iff (h : Splits text ws) (hc : isBlank c = false) :
    c ∈ text ↔ ∃ word ∈ ws, c ∈ word := by
  have hgap {gap : List Char} (blank : ∀ c ∈ gap, isBlank c = true) : c ∉ gap := fun hmem =>
    Bool.false_ne_true (hc.symm.trans (blank c hmem))
  induction h with
  | blank blank => simp [hgap blank]
  | word blank _ _ _ _ ih => simp [hgap blank, ih]

end BagOfCells.Blank
