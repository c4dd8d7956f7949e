import BagOfCells.Dictionary.Trie
import BagOfCells.Proofs.Dictionary.Label
import BagOfCells.Proofs.Wire.Values

/-!
# Tries that read back

A trie whose labels spell keys of one width reads back from its cells, edge by edge. The trie of
some entries in ascending order has just these entries: at each bit the keys that go on with a zero
come before those that go on with a one.

## Main definitions

* `Trie.Fits width t`: a trie with keys of a width
* `Trie.Keyed width entries`: entries in ascending order, with keys of a width

## Main results

* `Trie.ofCell_toCell`: a trie reads back from its cell
* `Trie.ofEntries_cases`: the trie of some entries has these entries
-/

namespace BagOfCells

open Outcome

namespace Trie

/-! ## Cells -/

/-- A trie with keys of a width, its values made cells. -/
inductive Fits : Nat → Trie → Prop where
  | leaf {label : Bits} {value : Cell} (made : Cell.Made value) :
    Fits label.length (.leaf label value)
  /-- The keys below a fork go on behind its label and one more bit. -/
  | fork {label : Bits} {zero one : Trie} {below : Nat} (hz : Fits below zero)
      (ho : Fits below one) : Fits (label.length + 1 + below) (.fork label zero one)

section

variable {width : Nat} {cell value zero one : Cell} {label : Bits}

theorem loadEdge_eq_ok {edge : Bits × Node} (hk : cell.kind = .ordinary)
    (h : ∃ after, (do
      let label ← Slice.loadLabel width
      return (label, ← loadNode width label.length) : Load (Bits × Node)) (.ofCell cell) =
        .ok edge after) : loadEdge width cell = .ok edge := by
  obtain ⟨after, h⟩ := h
  rw [loadEdge, Slice.ordinary_eq_ok hk]
  simp only [h]

theorem ofCell_of_value (h : loadEdge width cell = .ok (label, .value value)) :
    ofCell width cell = .ok (leaf label value) := by
  rw [ofCell, h]

theorem ofCell_of_fork (h : loadEdge width cell = .ok (label, .fork zero one))
    (hl : label.length < width) :
    ofCell width cell = do
      let zero ← ofCell (width - label.length - 1) zero
      let one ← ofCell (width - label.length - 1) one
      return fork label zero one := by
  rw [ofCell, h]
  simp only [hl, dif_pos]

/-- The edge of a leaf reads back. -/
theorem loadEdge_leaf (hw : label.length < 2 ^ 64) (hv : value.Made)
    (h : (leaf label value).toCell label.length = .ok cell) :
    loadEdge label.length cell = .ok (label, .value value) := by
  have hnode : Builder.ReadsBack (Builder.storeCell value) (loadNode label.length label.length) true
      (.value value) := by
    unfold loadNode
    rw [if_pos rfl]
    exact (Builder.readsBack_cell hv.sound).map Node.value
  have hedge : Builder.ReadsBack
      (do
        Builder.storeLabel label.length label
        Builder.storeCell value)
      (do
        let label' ← Slice.loadLabel label.length
        return (label', ← loadNode label.length label'.length)) true (label, .value value) :=
    (Builder.readsBack_label hw le_rfl).bind (hnode.map fun node => (label, node))
  obtain ⟨hreads, hk, hs⟩ := Builder.Appends.build hedge h
  exact loadEdge_eq_ok hk ⟨_, hreads.run_ofCell hs⟩

/-- The cell of a fork holds its label and refers to the cells of its two tries. -/
theorem toCell_fork_eq_ok {z o : Trie} (h : (fork label z o).toCell width = .ok cell) :
    ∃ zero one, z.toCell (width - label.length - 1) = .ok zero ∧
      o.toCell (width - label.length - 1) = .ok one ∧
      Cell.make .ordinary (Label.encode width label) [zero, one] = .ok cell := by
  rw [toCell] at h
  obtain ⟨b, hlabel, h⟩ := bind_eq_ok_iff.mp h
  obtain ⟨zero, hz, h⟩ := bind_eq_ok_iff.mp h
  obtain ⟨one, ho, h⟩ := bind_eq_ok_iff.mp h
  obtain ⟨b', hrefs, hmake⟩ := bind_eq_ok_iff.mp h
  obtain ⟨_, _, rfl, rfl, rfl⟩ :=
    Builder.writes_label width label _ _ (Builder.run_eq_ok_iff.mp hlabel)
  obtain ⟨-, rfl⟩ := Builder.append_eq_ok_iff.mp (Builder.run_eq_ok_iff.mp hrefs)
  refine ⟨zero, one, hz, ho, ?_⟩
  simpa [Builder.endCell, Builder.empty] using hmake

/-- The edge of a fork reads back. -/
theorem loadEdge_fork (hw : width < 2 ^ 64) (hl : label.length < width)
    (h : Cell.make .ordinary (Label.encode width label) [zero, one] = .ok cell) :
    loadEdge width cell = .ok (label, .fork zero one) := by
  have hs := Cell.sound_of_make h
  have hreads : Slice.Reads (Slice.loadLabel width) false (Label.encode width label) [] label :=
    Slice.reads_form hw hl.le Builder.isUniform_of_form
  have hall := hreads cell [] [zero, one]
  rw [List.append_nil, List.nil_append, ← Cell.bits_make h, ← Cell.refs_make h] at hall
  have hlabel : Slice.loadLabel width (.ofCell cell) = .ok label ⟨cell, [], cell.refs⟩ :=
    hall (Slice.valid_ofCell hs) nofun
  refine loadEdge_eq_ok (Cell.kind_make h) ⟨⟨cell, [], [zero, one]⟩, ?_⟩
  rw [run_bind_of_ok hlabel, Cell.refs_make h]
  -- behind the label nothing but the two references is left
  unfold loadNode
  rw [if_neg hl.ne]
  rfl

/-- **A trie reads back** from its cell. -/
theorem ofCell_toCell {t : Trie} (hf : t.Fits width) (hw : width < 2 ^ 64)
    (h : t.toCell width = .ok cell) : ofCell width cell = .ok t := by
  induction hf generalizing cell with
  | leaf made => exact ofCell_of_value (loadEdge_leaf hw made h)
  | @fork label z o below _ _ ihz iho =>
    have hbelow : label.length + 1 + below - label.length - 1 = below := by omega
    have hl : label.length < label.length + 1 + below := by omega
    obtain ⟨zero, one, hz, ho, hmake⟩ := toCell_fork_eq_ok h
    rw [hbelow] at hz ho
    rw [ofCell_of_fork (loadEdge_fork hw hl hmake) hl, hbelow, ihz (by omega) hz,
      iho (by omega) ho]
    rfl

/-- The cell of a trie with made values is made. -/
theorem Fits.made_toCell {t : Trie} (hf : t.Fits width) (h : t.toCell width = .ok cell) :
    cell.Made := by
  induction hf generalizing cell with
  | @leaf label value made =>
    have hstore : Builder.Appends
        (do
          Builder.storeLabel label.length label
          Builder.storeCell value) fun _ refs => refs = value.refs := by
      have hvalue : Builder.Appends (Builder.storeCell value) fun _ refs => refs = value.refs :=
        Builder.appends_cell fun _ => rfl
      refine Builder.Appends.bind (Builder.writes_label _ label) hvalue ?_
      rintro _ _ _ _ ⟨-, rfl⟩ rfl
      rfl
    obtain ⟨hrefs, -, hs⟩ := Builder.Appends.build hstore h
    exact Cell.made_iff.mpr ⟨hs, hrefs ▸ fun _ => made.refs⟩
  | @fork label z o below _ _ ihz iho =>
    have hbelow : label.length + 1 + below - label.length - 1 = below := by omega
    obtain ⟨zero, one, hz, ho, hmake⟩ := toCell_fork_eq_ok h
    rw [hbelow] at hz ho
    refine Cell.made_iff.mpr ⟨Cell.sound_of_make hmake, ?_⟩
    rw [Cell.refs_make hmake]
    exact List.forall_mem_cons.mpr ⟨ihz hz, List.forall_mem_singleton.mpr (iho ho)⟩

end

/-! ## Entries -/

/-- Entries in ascending order of their keys, which have one width. -/
structure Keyed (width : Nat) (entries : List (Bits × Cell)) : Prop where
  length_eq : ∀ entry ∈ entries, entry.1.length = width
  sorted : entries.Pairwise fun a b => Bits.toNat a.1 < Bits.toNat b.1

/-- An entry below one more bit. -/
def consKey (bit : Bool) (entry : Bits × Cell) : Bits × Cell := (bit :: entry.1, entry.2)

section

variable {width : Nat} {entries : List (Bits × Cell)}

theorem mem_branch_iff {bit : Bool} {entry : Bits × Cell} :
    entry ∈ branch bit entries ↔ consKey bit entry ∈ entries := by
  unfold branch consKey
  rw [List.mem_filterMap]
  constructor
  · rintro ⟨⟨key, value⟩, hmem, h⟩
    rcases key with _ | ⟨first, key⟩
    · cases h
    · simp only at h
      split at h
      · next hb =>
        cases h
        exact hb ▸ hmem
      · cases h
  · intro h
    exact ⟨_, h, if_pos rfl⟩

/-- At each bit the entries that go on with a zero come before those that go on with a one. -/
theorem Keyed.eq_branches (h : Keyed (width + 1) entries) :
    entries = (branch false entries).map (consKey false) ++
      (branch true entries).map (consKey true) := by
  obtain ⟨hlen, hsorted⟩ := h
  induction entries with
  | nil => rfl
  | cons entry entries ih =>
    obtain ⟨hfirst, hrest⟩ := List.pairwise_cons.mp hsorted
    have hsplit := ih (fun e he => hlen e (List.mem_cons_of_mem _ he)) hrest
    obtain ⟨key, value⟩ := entry
    rcases key with _ | ⟨bit, key⟩
    · cases hlen _ List.mem_cons_self
    · cases bit with
      | false =>
        have hf : branch false ((false :: key, value) :: entries) =
          (key, value) :: branch false entries := rfl
        have ht : branch true ((false :: key, value) :: entries) = branch true entries := rfl
        rw [hf, ht, List.map_cons, List.cons_append, ← hsplit]
        rfl
      | true =>
        -- behind a key that goes on with a one, no smaller one can follow
        have hnone : branch false entries = [] := by
          rw [List.eq_nil_iff_forall_not_mem]
          intro e he
          have hmem := mem_branch_iff.mp he
          have hlt := hfirst _ hmem
          have hl := hlen _ (List.mem_cons_of_mem _ hmem)
          have hk := hlen _ List.mem_cons_self
          have hbound := Bits.toNat_lt e.1
          simp only [consKey, List.length_cons, Nat.add_right_cancel_iff] at hl hk
          simp only [consKey, Bits.toNat_cons, Bool.toNat_false, Bool.toNat_true, hl, hk] at hlt
          rw [hl] at hbound
          omega
        have hf : branch false ((true :: key, value) :: entries) = branch false entries := rfl
        have ht : branch true ((true :: key, value) :: entries) =
          (key, value) :: branch true entries := rfl
        rw [hnone] at hsplit
        rw [hf, ht, hnone, List.map_cons]
        exact congrArg (consKey true (key, value) :: ·) hsplit

theorem Keyed.branch (h : Keyed (width + 1) entries) (bit : Bool) :
    Keyed width (branch bit entries) := by
  have hlen : ∀ entry ∈ Trie.branch bit entries, entry.1.length = width :=
    fun entry he => Nat.succ.inj (h.length_eq _ (mem_branch_iff.mp he))
  refine ⟨hlen, ?_⟩
  have hs := h.sorted
  rw [h.eq_branches, List.pairwise_append] at hs
  have hmap : ((Trie.branch bit entries).map (consKey bit)).Pairwise
      fun a b => Bits.toNat a.1 < Bits.toNat b.1 := by
    cases bit
    · exact hs.1
    · exact hs.2.1
  rw [List.pairwise_map] at hmap
  refine hmap.imp_of_mem ?_
  intro a b ha hb hlt
  -- the first bit is the same in both
  simp only [consKey, Bits.toNat_cons, hlen a ha, hlen b hb] at hlt
  exact Nat.lt_of_add_lt_add_left hlt

theorem Keyed.length_le_one (h : Keyed 0 entries) : entries.length ≤ 1 := by
  rcases entries with _ | ⟨a, _ | ⟨b, rest⟩⟩
  · exact Nat.zero_le 1
  · exact le_rfl
  · have hlt := (List.pairwise_cons.mp h.sorted).1 b List.mem_cons_self
    rw [List.eq_nil_of_length_eq_zero (h.length_eq a (by simp)),
      List.eq_nil_of_length_eq_zero (h.length_eq b (by simp))] at hlt
    exact absurd hlt (lt_irrefl _)

theorem toEntries_consLabel (bit : Bool) (t : Trie) :
    (t.consLabel bit).toEntries = t.toEntries.map (consKey bit) := by
  cases t with
  | leaf label value => rfl
  | fork label zero one =>
    simp only [consLabel, toEntries, List.map_append, List.map_map]
    rfl

theorem Fits.consLabel {t : Trie} (h : t.Fits width) (bit : Bool) :
    (t.consLabel bit).Fits (width + 1) := by
  cases h with
  | @leaf label value made =>
    exact (Fits.leaf made : Fits (bit :: label).length (.leaf (bit :: label) value))
  | @fork label zero one below hz ho =>
    have hwidth : label.length + 1 + below + 1 = (bit :: label).length + 1 + below := by
      rw [List.length_cons]
      omega
    rw [hwidth]
    exact Fits.fork hz ho

/-- **The trie of some entries** has just these entries, and there is one unless there are none. -/
theorem ofEntries_cases (h : Keyed width entries) (made : ∀ entry ∈ entries, entry.2.Made) :
    (entries = [] ∧ ofEntries width entries = none) ∨
      ∃ t, ofEntries width entries = some t ∧ t.Fits width ∧ t.toEntries = entries := by
  induction width generalizing entries with
  | zero =>
    have hone := h.length_le_one
    match entries with
    | [] => exact .inl ⟨rfl, rfl⟩
    | [(key, value)] =>
      have hkey : key = [] := List.eq_nil_of_length_eq_zero (h.length_eq _ List.mem_cons_self)
      subst hkey
      have hleaf : Fits ([] : Bits).length (leaf [] value) :=
        Fits.leaf (made _ List.mem_cons_self)
      exact .inr ⟨_, rfl, hleaf, rfl⟩
    | _ :: _ :: _ => simp at hone
  | succ width ih =>
    rcases entries with _ | ⟨entry, rest⟩
    · exact .inl ⟨rfl, rfl⟩
    · right
      have hsplit := h.eq_branches
      have hmade (bit : Bool) (e : Bits × Cell) (he : e ∈ branch bit (entry :: rest)) : e.2.Made :=
        made (consKey bit e) (mem_branch_iff.mp he)
      rw [ofEntries]
      -- where one branch is empty, its bit becomes the first one of the label of the other
      rcases ih (h.branch false) (hmade false) with ⟨hf, hnf⟩ | ⟨zero, hnf, hz, hze⟩ <;>
        rcases ih (h.branch true) (hmade true) with ⟨ht, hnt⟩ | ⟨one, hnt, ho, hoe⟩ <;>
        rw [hnf, hnt]
      · rw [hf, ht] at hsplit
        cases hsplit
      · refine ⟨_, rfl, ho.consLabel true, ?_⟩
        rw [toEntries_consLabel, hoe]
        rw [hf] at hsplit
        exact hsplit.symm
      · refine ⟨_, rfl, hz.consLabel false, ?_⟩
        rw [toEntries_consLabel, hze]
        rw [ht, List.map_nil, List.append_nil] at hsplit
        exact hsplit.symm
      · have hfork : Fits (([] : Bits).length + 1 + width) (fork [] zero one) := Fits.fork hz ho
        rw [List.length_nil, Nat.zero_add, Nat.add_comm] at hfork
        refine ⟨_, rfl, hfork, ?_⟩
        rw [toEntries, hze, hoe]
        exact hsplit.symm

end

end Trie

end BagOfCells
