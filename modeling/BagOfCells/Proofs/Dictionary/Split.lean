import BagOfCells.Proofs.Dictionary.Capacity

/-!
# Splitting the entries of a dictionary

The entries of a dictionary are in ascending order, so what the first and the last key share is
shared by all of them, and behind it the keys that go on with a zero stand in front of the others.
So the edges can be found one at a time. The label of an edge is the shared part, and the entries
are cut in two where the next bit turns. This gives the trie that comes of taking the keys bit by
bit.

## Main definitions

* `Trie.shared`: the bits that two keys have in common
* `Trie.split entries offset width`: the trie of some entries, edge by edge

## Main results

* `Trie.Fits.split_toEntries`: the entries of a trie are split at its forks
* `Dictionary.Valid.trie?_eq_split`: the trie of a dictionary
-/

namespace BagOfCells

namespace Trie

/-- The bits that two keys have in common in front of the first one they differ in. -/
def shared : Bits → Bits → Bits
  | a :: as, b :: bs => if a = b then a :: shared as bs else []
  | _, _ => []

/-- Whether the key of an entry goes on with a zero behind some bits. -/
def isZeroAt (place : Nat) (entry : Bits × Cell) : Bool := entry.1[place]? == some false

/-- The trie of some entries in ascending order, of whose keys `offset` bits have been passed and
`width` are still to come. -/
def split (entries : List (Bits × Cell)) (offset width : Nat) : Option Trie :=
  match entries with
  | [] => none
  | [(key, value)] => some (leaf (key.drop offset) value)
  | first :: second :: rest =>
    let last := rest.getLastD second
    let label := shared (first.1.drop offset) (last.1.drop offset)
    if label.length < width then do
      let place := offset + label.length
      let below := width - label.length - 1
      let zero ← split ((first :: second :: rest).takeWhile (isZeroAt place)) (place + 1) below
      let one ← split ((first :: second :: rest).dropWhile (isZeroAt place)) (place + 1) below
      return fork label zero one
    else none
termination_by width

/-- Of two entries or more, the first and the last one tell the label. -/
theorem split_of_shared {first last : Bits × Cell} {offset width below : Nat} {label : Bits}
    (h : shared (first.1.drop offset) (last.1.drop offset) = label)
    (hwidth : width = label.length + 1 + below) (middle : List (Bits × Cell)) :
    split (first :: (middle ++ [last])) offset width = (do
      let entries := first :: (middle ++ [last])
      let place := offset + label.length
      let zero ← split (entries.takeWhile (isZeroAt place)) (place + 1) below
      let one ← split (entries.dropWhile (isZeroAt place)) (place + 1) below
      return fork label zero one) := by
  have hlt : label.length < width := by omega
  have hbelow : width - label.length - 1 = below := by omega
  cases middle with
  | nil =>
    rw [List.nil_append, split, List.getLastD_nil]
    dsimp only
    rw [h, if_pos hlt, hbelow]
  | cons second middle =>
    rw [List.cons_append, split, List.getLastD_concat]
    dsimp only
    rw [h, if_pos hlt, hbelow]

/-! ## The split of a trie -/

/-- An entry below some bits. -/
def under (front : Bits) (entry : Bits × Cell) : Bits × Cell := (front ++ entry.1, entry.2)

theorem shared_fork (label zero one : Bits) :
    shared (label ++ false :: zero) (label ++ true :: one) = label := by
  induction label with
  | nil => rfl
  | cons bit label ih => rw [List.cons_append, List.cons_append, shared, if_pos rfl, ih]

section

variable {front label : Bits} {zeros ones : List (Bits × Cell)}

theorem map_under_underFork (bit : Bool) (entries : List (Bits × Cell)) :
    (entries.map (underFork label bit)).map (under front) =
      entries.map (under (front ++ label ++ [bit])) := by
  rw [List.map_map]
  refine List.map_congr_left fun entry _ => ?_
  simp [under, underFork]

theorem drop_under (bit : Bool) (entry : Bits × Cell) :
    (under (front ++ label ++ [bit]) entry).1.drop front.length = label ++ bit :: entry.1 := by
  simp [under]

theorem isZeroAt_under (bit : Bool) (entry : Bits × Cell) :
    isZeroAt (front.length + label.length) (under (front ++ label ++ [bit]) entry) = !bit := by
  cases bit <;> simp [under, isZeroAt]

/-- Entries that go on with a zero, with entries behind them that go on with a one. -/
theorem parts_append (front label : Bits) (zeros ones : List (Bits × Cell)) :
    let place := front.length + label.length
    let entries := zeros.map (under (front ++ label ++ [false])) ++
      ones.map (under (front ++ label ++ [true]))
    entries.takeWhile (isZeroAt place) = zeros.map (under (front ++ label ++ [false])) ∧
      entries.dropWhile (isZeroAt place) = ones.map (under (front ++ label ++ [true])) := by
  intro place entries
  have hzeros : ∀ entry ∈ zeros.map (under (front ++ label ++ [false])),
      isZeroAt place entry = true :=
    List.forall_mem_map.mpr fun entry _ => isZeroAt_under false entry
  rw [List.takeWhile_append_of_pos hzeros, List.dropWhile_append_of_pos hzeros]
  cases ones with
  | nil => exact ⟨List.append_nil _, rfl⟩
  | cons one ones =>
    have hone : ¬ isZeroAt place (under (front ++ label ++ [true]) one) = true := by
      rw [isZeroAt_under]
      exact Bool.false_ne_true
    rw [List.map_cons, List.takeWhile_cons_of_neg hone, List.dropWhile_cons_of_neg hone,
      List.append_nil]
    exact ⟨rfl, rfl⟩

/-- They are split into just these two parts, and what they share is the label. -/
theorem split_append (hz : zeros ≠ []) (ho : ones ≠ []) (below : Nat) :
    split (zeros.map (under (front ++ label ++ [false])) ++
        ones.map (under (front ++ label ++ [true]))) front.length (label.length + 1 + below) =
      (do
        let zero ← split (zeros.map (under (front ++ label ++ [false])))
          (front.length + label.length + 1) below
        let one ← split (ones.map (under (front ++ label ++ [true])))
          (front.length + label.length + 1) below
        return fork label zero one) := by
  obtain ⟨htake, hdrop⟩ := parts_append front label zeros ones
  -- the first key goes on with a zero and the last one with a one
  obtain ⟨first, zeros, rfl⟩ := List.exists_cons_of_ne_nil hz
  obtain ⟨ones, last, rfl⟩ := (List.eq_nil_or_concat' ones).resolve_left ho
  have hshared : shared ((under (front ++ label ++ [false]) first).1.drop front.length)
      ((under (front ++ label ++ [true]) last).1.drop front.length) = label := by
    rw [drop_under, drop_under, shared_fork]
  have hmiddle := split_of_shared hshared (rfl : label.length + 1 + below = _)
    (zeros.map (under (front ++ label ++ [false])) ++ ones.map (under (front ++ label ++ [true])))
  simp only [List.map_cons, List.map_append, List.map_nil, List.cons_append, List.append_assoc]
    at hmiddle htake hdrop ⊢
  rw [hmiddle, htake, hdrop]

/-- **The entries of a trie**, below some bits that have been passed, are split at its forks. -/
theorem Fits.split_toEntries {t : Trie} {width : Nat} (h : t.Fits width) (front : Bits) :
    split (t.toEntries.map (under front)) front.length width = some t := by
  induction h generalizing front with
  | @leaf label value _ =>
    rw [toEntries, List.map_singleton, under, split, List.drop_left]
  | @fork label z o below _ _ ihz iho =>
    have hlength (bit : Bool) :
        (front ++ label ++ [bit]).length = front.length + label.length + 1 := by
      simp only [List.length_append, List.length_singleton]
    have hzero := ihz (front ++ label ++ [false])
    have hone := iho (front ++ label ++ [true])
    rw [hlength] at hzero hone
    rw [toEntries_fork, List.map_append, map_under_underFork, map_under_underFork,
      split_append (toEntries_ne_nil z) (toEntries_ne_nil o), hzero, hone]
    rfl

end

end Trie

/-! ## Dictionaries -/

namespace Dictionary

theorem HasTrie.split_entries {d : Dictionary} {t : Trie} (h : d.HasTrie t) :
    Trie.split (d.entries.map (spell d.width)) 0 d.width = some t := by
  have hfront : t.toEntries.map (Trie.under []) = t.toEntries := List.map_id t.toEntries
  rw [h.map_spell, ← hfront]
  exact h.fits.split_toEntries []

/-- **The trie of a dictionary** is found edge by edge. -/
theorem Valid.trie?_eq_split {d : Dictionary} (h : d.Valid) :
    d.trie? = Trie.split (d.entries.map (spell d.width)) 0 d.width := by
  rcases h.trie?_cases with ⟨hempty, hnone⟩ | ⟨t, htrie, hfits, hentries⟩
  · rw [hnone, hempty, empty, List.map_nil, Trie.split]
  · have hsplit := HasTrie.split_entries ⟨hfits, hentries⟩
    exact htrie.trans hsplit.symm

end Dictionary

end BagOfCells
