import BagOfCells.Dictionary.Basic
import BagOfCells.Proofs.Dictionary.Trie

/-!
# Dictionaries that read back

The entries of a dictionary are in ascending order and have keys of its width, from the empty
dictionary on. So a dictionary reads back from its cell, and from where it was stored.

## Main definitions

* `Dictionary.Valid`: the invariant of dictionaries
* `Dictionary.spell`, `Dictionary.number`: entries by the bits and by the number of their key

## Main results

* `Dictionary.valid_empty`, `Dictionary.Valid.set`, `Dictionary.Valid.delete`: the invariant is kept
* `Dictionary.Valid.trie?_cases`: a dictionary has a trie with its entries
* `Dictionary.Valid.toCell?_cases`: a dictionary reads back from its cell
* `Builder.readsBack_dictionary`: a dictionary reads back from where it was stored
-/

namespace BagOfCells

open Outcome

namespace Dictionary

/-- The entries of a dictionary are in ascending order of their keys, which fit its width. -/
structure Valid (d : Dictionary) : Prop where
  key_lt : ∀ entry ∈ d.entries, entry.1 < 2 ^ d.width
  sorted : d.entries.Pairwise fun a b => a.1 < b.1
  made : ∀ entry ∈ d.entries, entry.2.Made

/-! ## The invariant is kept -/

theorem valid_empty (width : Nat) : Valid (empty width) :=
  ⟨nofun, .nil, nofun⟩

section

variable {key : Nat} {value : Cell} {entries : List (Nat × Cell)}

theorem mem_insert {entry : Nat × Cell} (h : entry ∈ insert key value entries) :
    entry = (key, value) ∨ entry ∈ entries := by
  induction entries with
  | nil => exact .inl (List.mem_singleton.mp h)
  | cons first rest ih =>
    rw [insert] at h
    split at h
    · exact List.mem_cons.mp h
    split at h
    · exact (List.mem_cons.mp h).imp_right (List.mem_cons_of_mem _)
    · rcases List.mem_cons.mp h with rfl | h
      · exact .inr List.mem_cons_self
      · exact (ih h).imp_right (List.mem_cons_of_mem _)

theorem pairwise_insert (h : entries.Pairwise fun a b => a.1 < b.1) :
    (insert key value entries).Pairwise fun a b => a.1 < b.1 := by
  induction entries with
  | nil => exact List.pairwise_singleton ..
  | cons first rest ih =>
    obtain ⟨hfirst, hrest⟩ := List.pairwise_cons.mp h
    rw [insert]
    split
    · next hlt =>
      refine List.pairwise_cons.mpr ⟨?_, h⟩
      intro entry he
      rcases List.mem_cons.mp he with rfl | he
      · exact hlt
      · exact hlt.trans (hfirst entry he)
    split
    · next heq => exact List.pairwise_cons.mpr ⟨fun entry he => heq ▸ hfirst entry he, hrest⟩
    · next hlt hne =>
      refine List.pairwise_cons.mpr ⟨?_, ih hrest⟩
      intro entry he
      rcases mem_insert he with rfl | he
      · exact lt_of_le_of_ne (not_lt.mp hlt) (Ne.symm hne)
      · exact hfirst entry he

end

section

variable {d d' : Dictionary} {key : Key} {value : Cell} {old : Option Cell}

theorem index_lt {n : Nat} (h : d.index key = .ok n) : n < 2 ^ d.width := by
  obtain ⟨m, -, h⟩ := bind_eq_ok_iff.mp h
  split at h
  · cases h
  · next hn =>
    cases h
    exact Bits.size_le_iff_lt.mp (not_lt.mp hn)

/-- A made cell put under a key keeps the invariant. -/
theorem Valid.set (h : d.Valid) (hv : value.Made) (hs : d.set key value = .ok (old, d')) :
    d'.Valid := by
  obtain ⟨n, hn, hs⟩ := bind_eq_ok_iff.mp hs
  cases hs
  refine ⟨?_, pairwise_insert h.sorted, ?_⟩
  · intro entry he
    rcases mem_insert he with rfl | he
    · exact index_lt hn
    · exact h.key_lt entry he
  · intro entry he
    rcases mem_insert he with rfl | he
    · exact hv
    · exact h.made entry he

theorem Valid.delete (h : d.Valid) (hs : d.delete key = .ok (old, d')) : d'.Valid := by
  obtain ⟨n, -, hs⟩ := bind_eq_ok_iff.mp hs
  cases hs
  exact ⟨fun entry he => h.key_lt entry (List.mem_of_mem_filter he), h.sorted.filter _,
    fun entry he => h.made entry (List.mem_of_mem_filter he)⟩

/-! ## Cells -/

/-- An entry with its key spelled in bits. -/
def spell (width : Nat) (entry : Nat × Cell) : Bits × Cell := (Bits.ofNat width entry.1, entry.2)

/-- An entry with the number its key spells. -/
def number (entry : Bits × Cell) : Nat × Cell := (Bits.toNat entry.1, entry.2)

theorem number_spell {width : Nat} {entry : Nat × Cell} (h : entry.1 < 2 ^ width) :
    number (spell width entry) = entry :=
  Prod.ext (Bits.toNat_ofNat h) rfl

theorem trie?_eq (d : Dictionary) :
    d.trie? = Trie.ofEntries d.width (d.entries.map (spell d.width)) :=
  rfl

theorem ofCell_of_lt {width : Nat} (hw : width < 2 ^ 63) (cell : Cell) : ofCell width cell =
    (Trie.ofCell width cell).map fun t => ⟨width, t.toEntries.map number⟩ := by
  rw [ofCell, Checked.room_eq_ok (Bits.bound_eq 63 ▸ hw)]
  rfl

/-- There is no room for the keys of a dictionary if they are too long. -/
theorem ofCell_of_le {width : Nat} (hw : 2 ^ 63 ≤ width) (cell : Cell) :
    ofCell width cell = .error .overflow := by
  rw [ofCell, Checked.room_eq_overflow (Bits.bound_eq 63 ▸ not_lt.mpr hw)]
  rfl

theorem ofCell_eq_ok_iff {width : Nat} {cell : Cell} : ofCell width cell = .ok d ↔
    width < 2 ^ 63 ∧ ∃ t, Trie.ofCell width cell = .ok t ∧
      ⟨width, t.toEntries.map number⟩ = d := by
  rcases lt_or_ge width (2 ^ 63) with hw | hw
  · rw [ofCell_of_lt hw, and_iff_right hw]
    exact map_eq_ok_iff
  · rw [ofCell_of_le hw]
    exact iff_of_false nofun fun h => absurd h.1 (not_lt.mpr hw)

theorem eq_empty (h : d.isEmpty = true) : d = empty d.width := by
  obtain ⟨width, entries⟩ := d
  rw [isEmpty, List.isEmpty_iff] at h
  cases h
  rfl

theorem toCell?_empty (width : Nat) : (empty width).toCell? = .ok none :=
  if_pos rfl

theorem toCell?_of_lt (hne : d.isEmpty = false) (hw : d.width < 2 ^ 63) :
    d.toCell? = d.trie?.mapM (·.toCell d.width) := by
  rw [toCell?, hne, if_neg Bool.false_ne_true, Checked.room_eq_ok (Bits.bound_eq 63 ▸ hw)]
  rfl

/-- There is no room for the keys of a dictionary with entries if they are too long. -/
theorem toCell?_of_le (hne : d.isEmpty = false) (hw : 2 ^ 63 ≤ d.width) :
    d.toCell? = .error .overflow := by
  rw [toCell?, hne, if_neg Bool.false_ne_true,
    Checked.room_eq_overflow (Bits.bound_eq 63 ▸ not_lt.mpr hw)]
  rfl

/-- The keys of a dictionary as bits of its width. -/
theorem Valid.keyed (h : d.Valid) : Trie.Keyed d.width (d.entries.map (spell d.width)) := by
  constructor
  · intro entry he
    obtain ⟨e, -, rfl⟩ := List.mem_map.mp he
    exact Bits.length_ofNat ..
  · rw [List.pairwise_map]
    refine h.sorted.imp_of_mem ?_
    intro a b ha hb hlt
    rwa [spell, spell, Bits.toNat_ofNat (h.key_lt a ha), Bits.toNat_ofNat (h.key_lt b hb)]

/-- A dictionary has a trie with its entries, unless it is empty. -/
theorem Valid.trie?_cases (h : d.Valid) :
    (d = empty d.width ∧ d.trie? = none) ∨
      ∃ t, d.trie? = some t ∧ t.Fits d.width ∧ t.toEntries.map number = d.entries := by
  have hmade : ∀ entry ∈ d.entries.map (spell d.width), entry.2.Made := by
    intro entry he
    obtain ⟨e, hmem, rfl⟩ := List.mem_map.mp he
    exact h.made e hmem
  rw [trie?_eq]
  rcases Trie.ofEntries_cases h.keyed hmade with ⟨hnil, ht⟩ | ⟨t, ht, hfits, hentries⟩
  · rw [List.map_eq_nil_iff] at hnil
    exact .inl ⟨congrArg (Dictionary.mk d.width) hnil, ht⟩
  · refine .inr ⟨t, ht, hfits, ?_⟩
    rw [hentries, List.map_map]
    conv_rhs => rw [← List.map_id d.entries]
    exact List.map_congr_left fun e he => number_spell (h.key_lt e he)

/-- Where a dictionary has a cell or none, it is the cell of its trie, or the dictionary is
empty. -/
theorem Valid.of_toCell? (h : d.Valid) {root : Option Cell} (hc : d.toCell? = .ok root) :
    (root = none ∧ d = empty d.width) ∨
      ∃ (t : Trie) (cell : Cell), root = some cell ∧ d.width < 2 ^ 63 ∧ t.Fits d.width ∧
        t.toEntries.map number = d.entries ∧ t.toCell d.width = .ok cell := by
  cases hempty : d.isEmpty with
  | true =>
    rw [eq_empty hempty, toCell?_empty] at hc
    cases hc
    exact .inl ⟨rfl, eq_empty hempty⟩
  | false =>
    -- there is a trie, and room for its keys, or else there would be neither a cell nor none
    rcases lt_or_ge d.width (2 ^ 63) with hw | hw
    · rw [toCell?_of_lt hempty hw] at hc
      rcases h.trie?_cases with ⟨hd, -⟩ | ⟨t, ht, hfits, hentries⟩
      · rw [hd] at hempty
        cases hempty
      · rw [ht, Option.mapM_some] at hc
        obtain ⟨cell, hcell, rfl⟩ := map_eq_ok_iff.mp hc
        exact .inr ⟨t, cell, rfl, hw, hfits, hentries, hcell⟩
    · rw [toCell?_of_le hempty hw] at hc
      cases hc

/-- **A dictionary reads back** from its cell; without one it is empty. -/
theorem Valid.toCell?_cases (h : d.Valid) {root : Option Cell} (hc : d.toCell? = .ok root) :
    (root = none ∧ d = empty d.width) ∨ ∃ cell, root = some cell ∧ ofCell d.width cell = .ok d := by
  rcases h.of_toCell? hc with hnone | ⟨t, cell, rfl, hw, hfits, hentries, hcell⟩
  · exact .inl hnone
  · have ht := Trie.ofCell_toCell hfits (hw.trans (by decide)) hcell
    refine .inr ⟨cell, rfl, ofCell_eq_ok_iff.mpr ⟨hw, t, ht, ?_⟩⟩
    rw [hentries]

theorem Valid.made_toCell? (h : d.Valid) {root : Option Cell} (hc : d.toCell? = .ok root) :
    ∀ cell ∈ root, cell.Made := by
  rcases h.of_toCell? hc with ⟨rfl, -⟩ | ⟨t, cell, rfl, -, hfits, -, hcell⟩
  · exact nofun
  · rintro _ ⟨⟩
    exact hfits.made_toCell hcell

end

end Dictionary

/-! ## What is stored -/

namespace Builder

variable {rest : Bool}

theorem readsBack_no_dictionary (width : Nat) :
    ReadsBack (storeDictionary none) (Slice.loadDictionary width) rest (.empty width) :=
  (checks_ofExcept _).bind fun root hroot => by
    cases hroot
    exact (readsBack_maybeRef none).mono fun _ _ h => h.bind_nothing (.pure _)

/-- **A dictionary reads back** where it was stored. -/
theorem readsBack_dictionary {d : Dictionary} (h : d.Valid) :
    ReadsBack (storeDictionary (some d)) (Slice.loadDictionary d.width) rest d := by
  refine (checks_ofExcept _).bind fun root hroot => ?_
  obtain ⟨root, hc, rfl⟩ := map_eq_ok_iff.mp hroot
  refine (readsBack_maybeRef root).mono fun _ _ hread => hread.bind_nothing ?_
  rcases h.toCell?_cases hc with ⟨rfl, hempty⟩ | ⟨cell, rfl, hcell⟩
  · rw [hempty]
    exact .pure _
  · exact Slice.reads_ofExcept hcell

end Builder

end BagOfCells
