import BagOfCells.Proofs.Builder.Unchanged
import BagOfCells.Proofs.Cell.Pruning
import BagOfCells.Proofs.Codec.Transfer
import BagOfCells.Proofs.Slice.Position

/-!
# Inline or in a reference, exactly

A payload goes inline when its bits together with the selector and its references fit what is left
of a builder, each of the two for itself; otherwise it goes into a reference when one bit and one
reference are left; otherwise nothing is stored. Wherever it has gone, it is loaded from there by
both loads of a payload, that of a type and that of a schema, although only the first one makes
sure that the cell in the reference is an ordinary one.

## Main results

* `Builder.storeEither_eq`: where a payload goes
* `Builder.load_either_eq`: both loads, from where it has gone
* `PackedBuilder.storeEither_placement`: both, on bytes
-/

namespace BagOfCells

open Outcome

namespace Builder

variable {payload : Cell} {b b' : Builder}

theorem append_eq (bits : Bits) (refs : List Cell) (b : Builder) :
    append bits refs b =
      if bits.length ≤ b.availableBits then
        if refs.length ≤ b.availableRefs then .ok () (b.behind bits refs)
        else .error (.refs refs.length b.availableRefs) b
      else .error (.bits bits.length b.availableBits) b := by
  unfold append refusal?
  by_cases hb : bits.length ≤ b.availableBits
  · by_cases hr : refs.length ≤ b.availableRefs
    · rw [if_pos hb, if_pos hr, if_neg (Nat.not_lt.mpr hb), if_neg (Nat.not_lt.mpr hr)]
      rfl
    · rw [if_pos hb, if_neg hr, if_neg (Nat.not_lt.mpr hb), if_pos (Nat.lt_of_not_le hr)]
  · rw [if_neg hb, if_pos (Nat.lt_of_not_le hb)]

/-- **Where an ordinary payload goes.** -/
theorem storeEither_eq (hk : payload.isExotic = false) (b : Builder) :
    storeEither payload b =
      if b.canFit (payload.bits.length + 1) payload.refs.length then
        .ok () (b.behind (false :: payload.bits) payload.refs)
      else append [true] [payload] b := by
  change (if b.canFit (payload.bits.length + 1) payload.refs.length then
    (do storeBit false; storeCell payload) else storeMaybeRef (some payload) : Store) b = _
  split
  · next hroom =>
    -- the selector and the contents fit together, so each of them fits
    have hboth : b.canFit ([false] ++ payload.bits).length ([] ++ payload.refs).length = true := by
      rwa [List.length_append, List.length_singleton, Nat.add_comm, List.nil_append]
    obtain ⟨hbit, hcell⟩ := canFit_behind hboth
    have hstore : storeCell payload = append payload.bits payload.refs := by
      rw [storeCell, hk]
      rfl
    have hfirst : storeBit false b = .ok () (b.behind [false] []) :=
      append_eq_ok_iff.mpr ⟨hbit, rfl⟩
    rw [run_bind_of_ok hfirst, hstore, append_eq_ok_iff.mpr ⟨hcell, rfl⟩]
    exact congrArg _ (behind_append b [false] payload.bits [] payload.refs).symm
  · rfl

/-- Both stores of a payload are this one. -/
theorem store_either_eq (made : payload.Made) (hk : payload.isExotic = false) :
    Codec.rest.either.store payload = storeEither payload ∧
      ∀ name, (FieldTag.either .cell).store name (.cell payload) = storeEither payload := by
  refine ⟨?_, fun name => rfl⟩
  change (do storeEither (← ofExcept (Codec.rest.toCell payload))) = _
  rw [JettonTransfer.toCell_rest made hk]
  rfl

/-- **Both loads of a payload** read it from where it has gone. -/
theorem readsBack_either_both (made : payload.Made) (hk : payload.isExotic = false) :
    ReadsBack (storeEither payload) Codec.rest.either.load true payload ∧
      ReadsBack (storeEither payload) (FieldTag.either .cell).load true (.cell payload) := by
  have hinline (h : payload.kind = .ordinary) := Slice.reads_toCell made.sound h
  constructor
  · have hreturns := Codec.returns_either (Codec.returns_rest made)
    rwa [Codec.Returns, (store_either_eq made hk).1] at hreturns
  · rw [JettonTransfer.load_forwardPayload]
    exact (readsBack_either hinline rfl).map Value.cell

/-- What a load reads back from a cell it has been stored in last. -/
theorem ReadsBack.onBits_eq {α : Type} {store : Store} {load : Load α} {rest : Bool} {a : α}
    (h : ReadsBack store load rest a) (hstore : store b = .ok () b') {kind : CellKind} {cell : Cell}
    (hcell : b'.endExoticCell kind = .ok cell) :
    PackedSlice.onBits load ⟨cell, b.bits.length, b.refs.length⟩ =
      .ok a (PackedSlice.ofCell cell).finish := by
  have hload := h.load_eq hstore List.prefix_rfl List.prefix_rfl (fun _ => rfl) hcell
  have hb : cell.bits = b'.bits := Cell.bits_make hcell
  have hr : cell.refs = b'.refs := Cell.refs_make hcell
  rw [← hb, ← hr, List.drop_length, List.drop_length] at hload
  unfold PackedSlice.onBits PackedSlice.unpack
  rw [hload]
  rfl

end Builder

namespace PackedBuilder

open Builder (storeEither)

variable {payload : Cell} {b : PackedBuilder}

/-- Where an ordinary payload goes, on bytes. -/
theorem onBits_storeEither (hk : payload.isExotic = false) (u : Builder) :
    onBits (storeEither payload) u.pack =
      if payload.bits.length + 1 ≤ u.pack.availableBits ∧
          payload.refs.length ≤ u.pack.availableRefs then
        .ok () (u.behind (false :: payload.bits) payload.refs).pack
      else if 1 ≤ u.pack.availableBits ∧ 1 ≤ u.pack.availableRefs then
        .ok () (u.behind [true] [payload]).pack
      else
        .error (if 1 ≤ u.pack.availableBits then .refs 1 u.pack.availableRefs
          else .bits 1 u.pack.availableBits) u.pack := by
  have hroom : u.canFit (payload.bits.length + 1) payload.refs.length = true ↔
      payload.bits.length + 1 ≤ u.pack.availableBits ∧
        payload.refs.length ≤ u.pack.availableRefs := Builder.canFit_iff
  have havail : u.availableBits = u.pack.availableBits ∧ u.availableRefs = u.pack.availableRefs :=
    ⟨rfl, rfl⟩
  rw [onBits, unpack_pack, Builder.storeEither_eq hk]
  by_cases hin : payload.bits.length + 1 ≤ u.pack.availableBits ∧
      payload.refs.length ≤ u.pack.availableRefs
  · rw [if_pos (hroom.mpr hin), if_pos hin]
  · rw [if_neg (mt hroom.mp hin), if_neg hin, Builder.append_eq, List.length_singleton,
      List.length_singleton, havail.1, havail.2]
    by_cases hbit : 1 ≤ u.pack.availableBits
    · by_cases href : 1 ≤ u.pack.availableRefs
      · simp only [hbit, href, and_self, if_true]
      · simp only [hbit, href, and_false, if_true, if_false]
    · simp only [hbit, false_and, if_false]

/-- Both loads of a payload, from where it has gone on bytes. -/
theorem onBits_load_either (made : payload.Made) (hk : payload.isExotic = false) {u : Builder}
    (hu : u.InLimits) {b' : PackedBuilder}
    (hstore : onBits (storeEither payload) u.pack = .ok () b')
    {kind : CellKind} {cell : Cell} (hcell : b'.endExoticCell kind = .ok cell) :
    PackedSlice.onBits Codec.rest.either.load ⟨cell, u.bits.length, u.refs.length⟩ =
        .ok payload (PackedSlice.ofCell cell).finish ∧
      PackedSlice.onBits (FieldTag.either .cell).load ⟨cell, u.bits.length, u.refs.length⟩ =
        .ok (.cell payload) (PackedSlice.ofCell cell).finish := by
  obtain ⟨c, hc, rfl⟩ := ((StoreOp.performs_onBits
    (Builder.enlarges_storeEither payload)).eq_ok_iff hu).mp hstore
  have hgrows : u.Grows c := by
    have h := Builder.enlarges_storeEither payload u hu
    rwa [hc] at h
  rw [endExoticCell_pack hgrows.inLimits] at hcell
  obtain ⟨htyped, hschema⟩ := Builder.readsBack_either_both made hk
  exact ⟨htyped.onBits_eq hc hcell, hschema.onBits_eq hc hcell⟩

/-- **Either placement.** A made ordinary payload goes inline behind a zero exactly when its bits,
one more, and its references fit what is left of a builder; otherwise into a reference behind a one
exactly when one bit and one reference are left; otherwise the builder stays as it was. Both front
ends store a payload so, and both load it from a cell in which nothing is stored behind it, in
either placement, and come to the end of the cell. -/
theorem storeEither_placement (made : payload.Made) (hk : payload.isExotic = false)
    (hb : b.WellFormed) :
    onBits (storeEither payload) b =
      (if payload.bits.length + 1 ≤ b.availableBits ∧ payload.refs.length ≤ b.availableRefs then
        .ok () (b.unpack.behind (false :: payload.bits) payload.refs).pack
      else if 1 ≤ b.availableBits ∧ 1 ≤ b.availableRefs then
        .ok () (b.unpack.behind [true] [payload]).pack
      else
        .error (if 1 ≤ b.availableBits then .refs 1 b.availableRefs
          else .bits 1 b.availableBits) b) ∧
    (Codec.rest.either.store payload = storeEither payload ∧
      ∀ name, (FieldTag.either .cell).store name (.cell payload) = storeEither payload) ∧
    ∀ b', onBits (storeEither payload) b = .ok () b' →
      ∀ kind cell, b'.endExoticCell kind = .ok cell →
        PackedSlice.onBits Codec.rest.either.load ⟨cell, b.length, b.refs.length⟩ =
            .ok payload (PackedSlice.ofCell cell).finish ∧
          PackedSlice.onBits (FieldTag.either .cell).load ⟨cell, b.length, b.refs.length⟩ =
            .ok (.cell payload) (PackedSlice.ofCell cell).finish := by
  obtain ⟨hlimits, heq⟩ := hb.eq_pack
  generalize b.unpack = u at hlimits heq ⊢
  subst heq
  exact ⟨onBits_storeEither hk u, Builder.store_either_eq made hk,
    fun _ hstore _ _ hcell => onBits_load_either made hk hlimits hstore hcell⟩

/-- Three references are taken. -/
def crowded : PackedBuilder := ⟨[], 0, [.empty, .empty, .empty]⟩

/-- Two more do not fit, although the bits do, so the payload goes into the last one. -/
theorem storeEither_placement_crowded : ∃ cell : Cell,
    onBits (storeEither .bush) crowded = .ok () ⟨[0x80], 1, crowded.refs ++ [.bush]⟩ ∧
      (⟨[0x80], 1, crowded.refs ++ [.bush]⟩ : PackedBuilder).endCell = .ok cell ∧
      PackedSlice.onBits Codec.rest.either.load ⟨cell, 0, 3⟩ =
        .ok .bush (PackedSlice.ofCell cell).finish := by
  have hb : crowded.WellFormed := ⟨by decide, by decide, rfl, by decide⟩
  obtain ⟨hstore, -, hload⟩ := storeEither_placement Cell.made_bush rfl hb
  obtain ⟨cell, hcell⟩ : ∃ cell : Cell,
    (⟨[0x80], 1, crowded.refs ++ [.bush]⟩ : PackedBuilder).endCell = .ok cell := ⟨_, rfl⟩
  exact ⟨cell, hstore, hcell, (hload _ hstore _ _ hcell).1⟩

end PackedBuilder

end BagOfCells
