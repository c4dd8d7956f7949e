import BagOfCells.Proofs.Builder.Unchanged
import BagOfCells.Proofs.Cell.Pruning
import BagOfCells.Proofs.Slice.Exact
import BagOfCells.Slice.Store

/-!
# Four ways of copying

What is left of a slice is copied in four ways. It is made into a cell of its own, for which the
cell of the slice itself serves where nothing has been read of an ordinary one; its contents are
stored in a builder; the cell made of it is stored there; and so is a builder that holds the same.
The bits come from any bit of a byte on and go behind any bit of a byte, and each way looks for room
by itself. All of them copy just the bits and references that are left.

## Main definitions

* `PackedSlice.rebuild`: the cell of what is left, always made anew

## Main results

* `PackedSlice.rebuild_eq`: whether it is made anew makes no difference
* `PackedBuilder.storeRest_eq`: the bits and references stored are those that are left
* `PackedSlice.copies_agree`: all four ways, and when there is no cell
-/

namespace BagOfCells

open Outcome

variable {s : PackedSlice}

namespace PackedBuilder

theorem performs_unique {α : Type} {p p' : EStateM CellError PackedBuilder α}
    {store : EStateM CellError Builder α} (h : Performs p store) (h' : Performs p' store)
    {b : PackedBuilder} (hb : b.WellFormed) : p b = p' b := by
  obtain ⟨hlimits, heq⟩ := hb.eq_pack
  rw [heq]
  have hmatches := h _ hlimits
  have hmatches' := h' _ hlimits
  generalize p b.unpack.pack = r, p' b.unpack.pack = r', store b.unpack = out
    at hmatches hmatches' ⊢
  cases hmatches with
  | ok a _ =>
    cases hmatches'
    rfl
  | error e _ =>
    cases hmatches'
    rfl

/-! ## Contents of a slice -/

theorem ofExcept_ok_bind {α β : Type} (a : α) (next : α → EStateM CellError PackedBuilder β) :
    (ofExcept (.ok a) >>= next) = next a :=
  rfl

/-- The references that are looked at one by one are those that are left. -/
theorem forM_peekRef (hs : s.WellFormed) {rest : List Cell} {k : Nat}
    (h : s.unpack.refs.drop k = rest) :
    ((List.range' k rest.length).forM fun i => do
      storeRef (← ofExcept (s.value (PackedSlice.peekRef i)))) = rest.forM storeRef := by
  induction rest generalizing k with
  | nil => rfl
  | cons ref rest ih =>
    have hget : s.unpack.refs[k]? = some ref := by
      rw [← List.head?_drop, h]
      rfl
    have hrest : s.unpack.refs.drop (k + 1) = rest := by
      rw [← List.tail_drop, h]
      rfl
    have hpeek : s.value (PackedSlice.peekRef k) = .ok ref := by
      rw [PackedSlice.value, PackedSlice.peekRef_of_some hs hget]
    rw [List.length_cons, List.range'_succ, List.forM, List.forM, hpeek, ih hrest,
      ofExcept_ok_bind]

/-- **What is left of a slice** is stored bit by bit and reference by reference. -/
theorem storeRest_eq (hs : s.WellFormed) : storeRest s = storeSlice s.unpack := by
  have hcount : s.value PackedSlice.remainingBits = .ok s.unpack.bits.length := by
    rw [PackedSlice.value, PackedSlice.remainingBits_eq hs]
  have hrefs : s.value PackedSlice.remainingRefs = .ok s.unpack.refs.length := by
    rw [PackedSlice.value, PackedSlice.remainingRefs_eq hs]
  have hbits : s.value (PackedSlice.peekBits s.unpack.bits.length) =
      .ok (Bits.pack s.unpack.bits) := by
    rw [PackedSlice.value, PackedSlice.peeks_bits _ s hs, if_pos le_rfl, List.take_length]
  have hloop := forM_peekRef hs (List.drop_zero (l := s.unpack.refs))
  rw [← List.range_eq_range'] at hloop
  simp only [storeRest, hcount, hrefs, hbits, ofExcept_ok_bind, hloop]
  rfl

/-- What is left of a slice is appended. -/
theorem performs_storeRest (hs : s.WellFormed) :
    Performs (storeRest s) (Builder.append s.unpack.bits s.unpack.refs) := by
  rw [storeRest_eq hs]
  exact performs_storePacked _ _

/-- A builder that holds certain bits and references stores just these. -/
theorem performs_storeBuilder {other : PackedBuilder} (h : other.WellFormed) :
    Performs (storeBuilder other) (Builder.append other.bits other.refs) := by
  obtain ⟨-, heq⟩ := h.eq_pack
  have hstore := performs_storePacked other.bits other.refs
  change Performs (storeBuilder other.unpack.pack) _ at hstore
  rwa [← heq] at hstore

theorem performs_storeCell_ordinary {cell : Cell} (hk : cell.kind = .ordinary) :
    Performs (storeCell cell) (Builder.append cell.bits cell.refs) := by
  have hstore := performs_storeCell cell
  rwa [Builder.storeCell, Cell.isExotic, hk] at hstore

end PackedBuilder

namespace PackedSlice

open PackedBuilder

/-! ## The cell of what is left -/

/-- **Whether the cell is made anew** makes no difference. -/
theorem rebuild_eq (hs : s.WellFormed) : rebuild s = toCell s := by
  rw [rebuild_eq_make hs]
  by_cases hf : s.Fresh
  · have hkind : s.cell.kind = .ordinary := by
      simpa [Cell.isExotic, CellKind.isExotic] using hf.2.2
    have hmake : Cell.make .ordinary s.cell.bits s.cell.refs = .ok s.cell :=
      hkind ▸ Cell.make_of_sound hs.made.sound
    rw [toCell_of_fresh hf, unpack, hf.1, hf.2.1, List.drop_zero, List.drop_zero, hmake]
    rfl
  · rw [toCell_of_not_fresh hs hf]

/-- The cell of what is left holds just that. -/
theorem toCell_eq_ok (hs : s.WellFormed) {cell : Cell} {t : PackedSlice}
    (h : toCell s = .ok cell t) :
    t = s.finish ∧ cell.Made ∧ cell.kind = .ordinary ∧ cell.bits = s.unpack.bits ∧
      cell.refs = s.unpack.refs := by
  rw [← rebuild_eq hs, rebuild_eq_make hs] at h
  cases hmake : Cell.make .ordinary s.unpack.bits s.unpack.refs with
  | error e =>
    rw [hmake] at h
    cases h
  | ok made =>
    rw [hmake] at h
    cases h
    have hrefs := Cell.refs_make hmake
    refine ⟨rfl, Cell.made_iff.mpr ⟨Cell.sound_of_make hmake, fun ref href => ?_⟩,
      Cell.kind_make hmake, Cell.bits_make hmake, hrefs⟩
    rw [hrefs] at href
    exact hs.made.refs (List.mem_of_mem_drop href)

theorem not_overdeep_of_toCell (hs : s.WellFormed) {cell : Cell} {t : PackedSlice}
    (h : toCell s = .ok cell t) : ¬ s.Overdeep := by
  intro hdeep
  obtain ⟨_, herror⟩ := (toCell_eq_error_iff hs).mpr ⟨rfl, hdeep⟩
  cases h.symm.trans herror

/-- The cell of what is left is stored as what is left is. -/
theorem storeCell_toCell (hs : s.WellFormed) {cell : Cell} {t : PackedSlice}
    (h : toCell s = .ok cell t) {b : PackedBuilder} (hb : b.WellFormed) :
    storeCell cell b = storeRest s b := by
  obtain ⟨-, -, hk, hbits, hrefs⟩ := toCell_eq_ok hs h
  have hstore := performs_storeCell_ordinary hk
  rw [hbits, hrefs] at hstore
  exact performs_unique hstore (performs_storeRest hs) hb

/-- **All ways of copying agree.** What is left of a slice over a made cell of any kind makes an
ordinary cell of just these bits and references and leaves nothing behind, the same one whether it
is made anew or not; the only slices of which there is no cell are those where some depth of the one
to be made leaves two bytes. The store of what is left appends just these bits and references to a
builder or is refused, and the stores of that cell and of any builder that holds the same leave the
same builder or fail with the same error. -/
theorem copies_agree (hs : s.WellFormed) :
    rebuild s = toCell s ∧
    (match toCell s with
      | .ok cell t => ¬ s.Overdeep ∧ t = s.finish ∧ cell.Made ∧ cell.kind = .ordinary ∧
          cell.bits = s.unpack.bits ∧ cell.refs = s.unpack.refs ∧
          ∀ b : PackedBuilder, b.WellFormed → storeCell cell b = storeRest s b
      | .error e _ => s.Overdeep ∧ e = .overflow) ∧
    ∀ b : PackedBuilder, b.WellFormed →
      storeRest s b = PackedBuilder.onBits (Builder.append s.unpack.bits s.unpack.refs) b ∧
      ∀ other : PackedBuilder, other.WellFormed → other.bits = s.unpack.bits →
        other.refs = s.unpack.refs → storeBuilder other b = storeRest s b := by
  have hrest := performs_storeRest hs
  refine ⟨rebuild_eq hs, ?_, fun b hb => ⟨?_, fun other hother hbits hrefs => ?_⟩⟩
  · cases hcell : toCell s with
    | error e t => exact ((toCell_eq_error_iff hs).mp ⟨t, hcell⟩).symm
    | ok cell t =>
      obtain ⟨ht, hmade, hk, hbits, hrefs⟩ := toCell_eq_ok hs hcell
      exact ⟨not_overdeep_of_toCell hs hcell, ht, hmade, hk, hbits, hrefs,
        fun b hb => storeCell_toCell hs hcell hb⟩
  · exact performs_unique hrest (StoreOp.performs_onBits (Builder.enlarges_of_performs hrest)) hb
  · have hstore := performs_storeBuilder hother
    rw [hbits, hrefs] at hstore
    exact performs_unique hstore hrest hb

/-- Three bits and one reference from the second bit on, behind one bit. -/
theorem copies_agree_bush : ∃ cell : Cell,
    toCell ⟨.bush, 1, 1⟩ = .ok cell ⟨.bush, 4, 2⟩ ∧
      storeCell cell ⟨[0x80], 1, []⟩ = storeRest ⟨.bush, 1, 1⟩ ⟨[0x80], 1, []⟩ ∧
      storeRest ⟨.bush, 1, 1⟩ ⟨[0x80], 1, []⟩ = .ok () ⟨[0xa0], 4, [.shelf]⟩ := by
  have hs : (⟨.bush, 1, 1⟩ : PackedSlice).WellFormed := ⟨Cell.made_bush, by decide, by decide⟩
  have hb : (⟨[0x80], 1, []⟩ : PackedBuilder).WellFormed := ⟨by decide, by decide, rfl, by decide⟩
  obtain ⟨-, hcell, hstores⟩ := copies_agree hs
  obtain ⟨cell, hmade⟩ : ∃ cell : Cell, toCell ⟨.bush, 1, 1⟩ = .ok cell ⟨.bush, 4, 2⟩ := ⟨_, rfl⟩
  rw [hmade] at hcell
  obtain ⟨-, -, -, -, -, -, hstore⟩ := hcell
  exact ⟨cell, hmade, hstore _ hb, (hstores _ hb).1⟩

end PackedSlice

end BagOfCells
