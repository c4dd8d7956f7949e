import BagOfCells.Proofs.Dictionary.ReadBack
import BagOfCells.Proofs.Wire.Rest

/-!
# Tries that are loaded

No label is read that is longer than the key still to come. So the trie of a cell, whoever has made
it, has keys of one width, and its entries are in ascending order.

## Main results

* `Slice.gives_loadLabel`: a label is no longer than the key still to come
* `Trie.fits_ofCell`: the trie of a cell has keys of one width
* `Trie.Fits.keyed`: its entries are in ascending order
-/

namespace BagOfCells

open Outcome

/-! ## Labels -/

namespace Slice

theorem gives_loadUnary {m left : Nat} (h : left ≤ m) : Gives (loadUnary m left) (· ≤ m) := by
  induction left with
  | zero =>
    exact gives_loadBit.bind fun _ _ => gives_ite (fun _ => gives_throw _) fun _ =>
      gives_pure le_rfl
  | succ left ih =>
    exact gives_loadBit.bind fun _ _ => gives_ite (fun _ => ih (Nat.le_of_succ_le h)) fun _ =>
      gives_pure (Nat.sub_le ..)

theorem gives_loadEach (n : Nat) : Gives (loadEach n) (·.length = n) := by
  induction n with
  | zero => exact gives_pure rfl
  | succ n ih => exact gives_loadBit.bind fun _ _ => ih.map fun _ h => congrArg (· + 1) h

theorem gives_loadLength (m : Nat) : Gives (loadLength m) (· ≤ m) :=
  (gives_loadWord _).bind fun _ _ => gives_refuse fun h => gives_pure (not_lt.mp h)

/-- **A label** is no longer than the key still to come. -/
theorem gives_loadLabel (m : Nat) : Gives (loadLabel m) (·.length ≤ m) := by
  have heach (n : Nat) (h : n ≤ m) : Gives (loadEach n) (·.length ≤ m) := fun s a s' hs hload =>
    (gives_loadEach n s a s' hs hload).imp_right fun hl => hl.trans_le h
  refine gives_loadBit.bind fun _ _ => gives_ite (fun _ => ?_) fun _ =>
    (gives_loadUnary le_rfl).bind heach
  refine gives_loadBit.bind fun _ _ => gives_ite (fun _ => ?_) fun _ =>
    (gives_loadLength m).bind heach
  refine gives_loadBit.bind fun bit _ => (gives_loadLength m).map fun n h => ?_
  rwa [List.length_replicate]

end Slice

/-! ## Tries -/

namespace Trie

/-- The cells of a node are made. -/
def Node.Made : Node → Prop
  | .value cell => cell.Made
  | .fork left right => left.Made ∧ right.Made

section

variable {width : Nat} {cell : Cell}

/-- A value stands behind a label that ends the key. -/
theorem gives_loadNode (width length : Nat) : Slice.Gives (loadNode width length) fun node =>
    node.Made ∧ ∀ value, node = .value value → length = width := by
  unfold loadNode
  refine Slice.gives_ite (fun h => Slice.gives_toCell.map fun value hv => ⟨hv, fun _ _ => h⟩) ?_
  refine fun _ => Slice.gives_get.bind fun s hs => ?_
  split
  · next zero one hrefs =>
    have hzero : zero.Made := hs.refs zero (by simp [hrefs])
    have hone : one.Made := hs.refs one (by simp [hrefs])
    exact Slice.gives_ite (fun _ => Slice.gives_pure ⟨⟨hzero, hone⟩, nofun⟩) fun _ =>
      Slice.gives_throw _
  · exact Slice.gives_throw _

theorem made_of_loadEdge (hc : cell.Made) {label : Bits} {node : Node}
    (h : loadEdge width cell = .ok (label, node)) :
    label.length ≤ width ∧ node.Made ∧ ∀ value, node = .value value → label.length = width := by
  have hedge : Slice.Gives (do
      let label ← Slice.loadLabel width
      return (label, ← loadNode width label.length)) fun edge : Bits × Node =>
        edge.1.length ≤ width ∧ edge.2.Made ∧
          ∀ value, edge.2 = .value value → edge.1.length = width :=
    (Slice.gives_loadLabel width).bind fun label hl =>
      (gives_loadNode width label.length).map fun node hn => ⟨hl, hn⟩
  unfold loadEdge at h
  split at h
  · cases h
  · next s hs =>
    split at h
    · next edge s' hrun =>
      cases h
      unfold Slice.ordinary at hs
      split at hs
      · cases hs
      · cases hs
        exact (hedge _ _ s' (Slice.made_ofCell hc) hrun).2
    · cases h

/-- **The trie of a cell** has keys of one width, and its values are made cells. -/
theorem fits_ofCell {t : Trie} (hc : cell.Made) (h : ofCell width cell = .ok t) : t.Fits width := by
  fun_induction ofCell width cell generalizing t with
  | case1 => cases h
  | case2 width cell label value hedge =>
    cases h
    obtain ⟨-, hvalue, hlabel⟩ := made_of_loadEdge hc hedge
    exact hlabel value rfl ▸ .leaf hvalue
  | case3 width cell label zero one hedge hlt ihz iho =>
    obtain ⟨-, ⟨hzero, hone⟩, -⟩ := made_of_loadEdge hc hedge
    obtain ⟨z, hz, h⟩ := bind_eq_ok_iff.mp h
    obtain ⟨o, ho, h⟩ := bind_eq_ok_iff.mp h
    cases h
    have hwidth : width = label.length + 1 + (width - label.length - 1) := by omega
    exact hwidth ▸ .fork (ihz hzero hz) (iho hone ho)
  | case4 => cases h

end

/-! ## Entries -/

section

variable {width : Nat} {t : Trie}

/-- An entry below a label and one more bit. -/
def underFork (label : Bits) (bit : Bool) (entry : Bits × Cell) : Bits × Cell :=
  (label ++ bit :: entry.1, entry.2)

theorem toEntries_fork (label : Bits) (zero one : Trie) : (fork label zero one).toEntries =
    zero.toEntries.map (underFork label false) ++ one.toEntries.map (underFork label true) :=
  rfl

theorem toNat_underFork_lt_iff {label : Bits} {a b : Bits × Cell}
    (h : a.1.length = b.1.length) (bit bit' : Bool) :
    Bits.toNat (underFork label bit a).1 < Bits.toNat (underFork label bit' b).1 ↔
      bit.toNat * 2 ^ b.1.length + Bits.toNat a.1 <
        bit'.toNat * 2 ^ b.1.length + Bits.toNat b.1 := by
  rw [underFork, underFork, Bits.toNat_append, Bits.toNat_append, Bits.toNat_cons, Bits.toNat_cons,
    List.length_cons, List.length_cons, h]
  exact Nat.add_lt_add_iff_left

theorem Keyed.underFork {below : Nat} {entries : List (Bits × Cell)} (h : Keyed below entries)
    (label : Bits) (bit : Bool) :
    Keyed (label.length + 1 + below) (entries.map (underFork label bit)) := by
  constructor
  · intro entry he
    obtain ⟨e, hmem, rfl⟩ := List.mem_map.mp he
    have hlen := h.length_eq e hmem
    rw [Trie.underFork, List.length_append, List.length_cons]
    omega
  · rw [List.pairwise_map]
    refine h.sorted.imp_of_mem fun {a b} ha hb hlt => ?_
    have hlen := (h.length_eq a ha).trans (h.length_eq b hb).symm
    exact (toNat_underFork_lt_iff hlen bit bit).mpr (Nat.add_lt_add_left hlt _)

/-- **The entries of a trie** are in ascending order, the keys of one width. -/
theorem Fits.keyed (h : t.Fits width) : Keyed width t.toEntries := by
  induction h with
  | leaf made => exact ⟨by simp [toEntries], List.pairwise_singleton ..⟩
  | @fork label zero one below _ _ ihz iho =>
    have hz := ihz.underFork label false
    have ho := iho.underFork label true
    rw [toEntries_fork]
    refine ⟨?_, List.pairwise_append.mpr ⟨hz.sorted, ho.sorted, ?_⟩⟩
    · intro entry hmem
      rcases List.mem_append.mp hmem with hmem | hmem
      · exact hz.length_eq entry hmem
      · exact ho.length_eq entry hmem
    · -- a key that goes on with a zero is smaller than one that goes on with a one
      intro a ha b hb
      obtain ⟨a, hza, rfl⟩ := List.mem_map.mp ha
      obtain ⟨b, hob, rfl⟩ := List.mem_map.mp hb
      have hlen := (ihz.length_eq a hza).trans (iho.length_eq b hob).symm
      have hlt := Bits.toNat_lt a.1
      rw [hlen] at hlt
      rw [toNat_underFork_lt_iff hlen]
      simp only [Bool.toNat_false, Bool.toNat_true, Nat.zero_mul, Nat.one_mul, Nat.zero_add]
      exact hlt.trans_le (Nat.le_add_right ..)

end

end Trie

end BagOfCells
