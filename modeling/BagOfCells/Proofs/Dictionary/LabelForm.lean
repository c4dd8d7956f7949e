import BagOfCells.Dictionary.Packed
import BagOfCells.Proofs.Dictionary.Capacity
import BagOfCells.Proofs.Wire.External
import BagOfCells.Proofs.Wire.Words
import Mathlib.Data.Nat.Size
import Mathlib.Order.Bounds.Basic

/-!
# Labels that delimit themselves

A label is stored in the shortest of its forms, and it tells where it ends: bits begin with a form
of one label at most. For the short form this is so because a length in unary ends with its zero,
for the others because a length in binary has a fixed width. So a load finds the end of any label
whatever stands behind it, also of one that is too long, which it refuses. All this is stated on the
bytes of builders and cells, where a label is stored and read bit by bit.

## Main definitions

* `Label.Spells k label bits`: the forms of labels of any length
* `Label.costs k label`: how many bits they take

## Main results

* `PackedBuilder.performs_storeLabel`, `PackedSlice.follows_loadLabel`: on bytes as on bits
* `PackedSlice.Follows.eq_ok_iff`: what a load on positions accepts, and where it stops
* `Label.Spells.unique`: bits begin with one label at most
* `Label.isLeast_length_encode`: the form that is written is the shortest
* `Label.shortest_self_delimiting`: there and back, and what is read
-/

namespace BagOfCells

open Outcome

/-! ## On bytes -/

namespace PackedBuilder

theorem performs_forM_storeBit (bits : Bits) :
    Performs (bits.forM storeBit) ((bits.map ([·])).forM (Builder.append · [])) := by
  induction bits with
  | nil => exact performs_pure ()
  | cons bit bits ih => exact (performs_storeBit bit).bind fun _ => ih

/-- A length that fits its field. -/
theorem performs_storeLength {n width : Nat} (hw : width ≤ 64) (hn : n < 2 ^ width) :
    Performs (storeWord n.toUInt64 width) (Builder.append (Bits.ofNat width n) []) := by
  have hvalue : n.toUInt64.toNat = n :=
    Bits.toNat_toUInt64 (hn.trans_le (Nat.pow_le_pow_right (by decide) hw))
  have hstore := (Builder.ranged_storeWord n.toUInt64 width).stores (by rwa [hvalue])
  rw [hvalue] at hstore
  rw [← hstore]
  exact performs_storeWord n.toUInt64 width

/-- **A label** is stored as its pieces are, one after the other. -/
theorem performs_storeLabel {m : Nat} {label : Bits} (hm : m < 2 ^ 64) (hl : label.length ≤ m) :
    Performs (storeLabel m label) (Builder.storeLabel m label) := by
  have hlength : Performs (storeWord label.length.toUInt64 (Label.lengthWidth m)) _ :=
    performs_storeLength (Label.lengthWidth_le hm) (Label.lt_two_pow_lengthWidth hl)
  unfold storeLabel Builder.storeLabel
  -- each form field by field; on the bits these are the pieces of the label
  cases hform : Label.form m label with
  | short =>
    have hones := performs_forM_storeBit (List.replicate label.length true)
    rw [List.map_replicate] at hones
    rw [Label.pieces, List.cons_append]
    refine (performs_storeBit false).bind fun _ => ?_
    simp only [List.forM_eq_forM, List.forM_append]
    exact hones.bind fun _ => (performs_storeBit false).bind fun _ =>
      performs_forM_storeBit label
  | long =>
    exact (performs_storeLength (n := 0b10) (by decide) (by decide)).bind fun _ =>
      hlength.bind fun _ => performs_forM_storeBit label
  | same =>
    rcases label with _ | ⟨bit, rest⟩
    -- no bit is repeated in an empty label
    · cases Builder.isUniform_of_form hform
    · have hlast := hlength.bind fun _ => performs_pure ()
      rw [bind_pure_unit] at hlast
      exact (performs_storeLength (n := 0b11) (by decide) (by decide)).bind fun _ =>
        (performs_storeBit bit).bind fun _ => hlast

end PackedBuilder

namespace PackedSlice

variable {α : Type} {bounded : Prop} {packed : PackedLoad α} {load : Load α}
  {form : Bits → α → Prop} {s t : PackedSlice}

theorem follows_loadUnary (m left : Nat) :
    Follows bounded (loadUnary m left) (Slice.loadUnary m left) := by
  induction left with
  | zero =>
    exact follows_loadBit.bind fun _ =>
      follows_ite (fun _ => follows_throw fun _ => rfl) fun _ => follows_pure m
  | succ left ih =>
    exact follows_loadBit.bind fun _ => follows_ite (fun _ => ih) fun _ => follows_pure _

theorem follows_loadEach (n : Nat) : Follows bounded (loadEach n) (Slice.loadEach n) := by
  induction n with
  | zero => exact follows_pure []
  | succ n ih =>
    exact follows_loadBit.bind fun bit => ih.bind fun bits => follows_pure (bit :: bits)

theorem follows_loadLength (m : Nat) : Follows bounded (loadLength m) (Slice.loadLength m) :=
  (follows_loadWord _).bind fun n => follows_refuse rfl fun _ => follows_pure n.toNat

/-- **A label** is read from the bytes as from the bits. -/
theorem follows_loadLabel (m : Nat) : Follows bounded (loadLabel m) (Slice.loadLabel m) :=
  follows_loadBit.bind fun _ => follows_ite
    (fun _ => follows_loadBit.bind fun _ => follows_ite
      (fun _ => follows_loadBit.bind fun bit => (follows_loadLength m).bind fun n =>
        follows_pure (List.replicate n bit))
      fun _ => (follows_loadLength m).bind follows_loadEach)
    fun _ => (follows_loadUnary m m).bind follows_loadEach

/-- **A load that accepts a form** of what is left stops behind the bits of the form. -/
theorem Follows.eq_ok_iff (h : Follows bounded packed load) (ha : Slice.Accepts load form)
    (hs : s.WellFormed) {a : α} : packed s = .ok a t ↔
      ∃ bits, bits <+: s.unpack.bits ∧ form bits a ∧ t = s.skip bits.length := by
  have hbehind {bits rest : Bits} (hbits : s.unpack.bits = bits ++ rest) :
      s.Ahead (s.skip bits.length) ∧ (s.skip bits.length).unpack =
        ⟨s.cell, rest, s.cell.refs.drop s.refPosition⟩ := by
    refine ⟨hs.ahead_skip (by rw [hbits, List.length_append]; omega), ?_⟩
    rw [unpack_skip, hbits, List.drop_left]
    rfl
  constructor
  · intro hrun
    have hmatches := h s hs
    rw [hrun] at hmatches
    generalize hr : load s.unpack = r at hmatches
    cases hmatches with
    | ok _ hahead =>
      -- the positions are those of what is left, so they are the ones behind the form
      obtain ⟨bits, hunpack, hform⟩ := (ha.ok_iff _ _ _).mp hr
      obtain ⟨hcell, hbits, hrefs⟩ := Slice.mk.inj hunpack
      obtain ⟨hskip, hrest⟩ := hbehind hbits
      refine ⟨bits, ⟨_, hbits.symm⟩, hform, hahead.wellFormed.eq_of_unpack_eq hskip.wellFormed ?_⟩
      rw [hrest]
      exact (Slice.mk.injEq ..).mpr ⟨hcell.symm, rfl, hrefs.symm⟩
  · rintro ⟨bits, ⟨rest, hbits⟩, hform, rfl⟩
    obtain ⟨hskip, hrest⟩ := hbehind hbits.symm
    have hload : load s.unpack = .ok a ⟨s.cell, rest, s.cell.refs.drop s.refPosition⟩ :=
      (ha.ok_iff _ _ _).mpr ⟨bits, by rw [hbits]; rfl, hform⟩
    obtain ⟨t, hrun, hahead, ht⟩ := h.of_ok hs hload
    rw [hrun, hahead.wellFormed.eq_of_unpack_eq hskip.wellFormed (ht.trans hrest.symm)]

/-- Elsewhere it is refused. -/
theorem Follows.refuses (h : Follows bounded packed load) (ha : Slice.Accepts load form)
    (hs : s.WellFormed) {e : CellError} (hrun : packed s = .error e t) : e.isRefusal = true := by
  have hmatches := h s hs
  rw [hrun] at hmatches
  generalize hr : load s.unpack = r at hmatches
  cases hmatches with
  | error _ _ => exact ha.refuses _ _ _ hr

end PackedSlice

/-! ## Forms of labels of any length -/

namespace Label

variable {k m : Nat} {label label' bits bits' : Bits}

/-- Some bits are a label, however long, in one of its three forms with `k` bits for a length in
binary. -/
inductive Spells (k : Nat) : Bits → Bits → Prop where
  | short (label : Bits) :
    Spells k label (false :: (List.replicate label.length true ++ false :: label))
  | long {label : Bits} (h : label.length < 2 ^ k) :
    Spells k label (true :: false :: (Bits.ofNat k label.length ++ label))
  | same {n : Nat} (bit : Bool) (h : n < 2 ^ k) :
    Spells k (List.replicate n bit) (true :: true :: bit :: Bits.ofNat k n)

/-- The width of a length is that of the longest one. -/
theorem lengthWidth_eq_size (m : Nat) : lengthWidth m = Nat.size m :=
  eq_of_forall_ge_iff fun c => by rw [lengthWidth, Bits.size_le_iff_lt, Nat.size_le]

/-- What a load accepts is spelled, and not too long. -/
theorem derives_iff_spells :
    Derives m label bits ↔ label.length ≤ m ∧ Spells (lengthWidth m) label bits := by
  constructor
  · intro h
    refine ⟨h.length_le, ?_⟩
    cases h with
    | short h => exact .short label
    | long h => exact .long (lt_two_pow_lengthWidth h)
    | same bit h => exact .same bit (lt_two_pow_lengthWidth h)
  · rintro ⟨hl, h⟩
    cases h with
    | short => exact .short hl
    | long => exact .long hl
    | same bit => exact .same bit (by rwa [List.length_replicate] at hl)

theorem unary_inj {n n' : Nat} {rest rest' : Bits}
    (h : List.replicate n true ++ false :: rest = List.replicate n' true ++ false :: rest') :
    n = n' ∧ rest = rest' := by
  induction n generalizing n' with
  | zero =>
    cases n' with
    | zero => exact ⟨rfl, (List.cons.inj h).2⟩
    | succ n' => cases h
  | succ n ih =>
    cases n' with
    | zero => cases h
    | succ n' =>
      obtain ⟨rfl, hrest⟩ := ih (List.cons.inj h).2
      exact ⟨rfl, hrest⟩

theorem binary_inj {n n' : Nat} (hn : n < 2 ^ k) (hn' : n' < 2 ^ k) {rest rest' : Bits}
    (h : Bits.ofNat k n ++ rest = Bits.ofNat k n' ++ rest') : n = n' ∧ rest = rest' := by
  obtain ⟨hnumber, hrest⟩ := List.append_inj h (by rw [Bits.length_ofNat, Bits.length_ofNat])
  refine ⟨?_, hrest⟩
  rw [← Bits.toNat_ofNat hn, hnumber, Bits.toNat_ofNat hn']

/-- **No label goes on**: bits begin with one label at most, in one form. -/
theorem Spells.unique (h : Spells k label bits) (h' : Spells k label' bits') {rest rest' : Bits}
    (heq : bits ++ rest = bits' ++ rest') : label = label' ∧ bits = bits' := by
  suffices hlabel : label = label' ∧ rest = rest' by
    obtain ⟨hlabel, rfl⟩ := hlabel
    exact ⟨hlabel, List.append_cancel_right heq⟩
  -- the first two bits tell the forms apart, and in each the length tells where the label ends
  cases h with
  | short =>
    cases h' with
    | short =>
      simp only [List.cons_append, List.append_assoc, List.cons.injEq, true_and] at heq
      obtain ⟨hlength, hlabel⟩ := unary_inj heq
      exact List.append_inj hlabel hlength
    | long => cases heq
    | same => cases heq
  | long hn =>
    cases h' with
    | short => cases heq
    | long hn' =>
      simp only [List.cons_append, List.append_assoc, List.cons.injEq, true_and] at heq
      obtain ⟨hlength, hlabel⟩ := binary_inj hn hn' heq
      exact List.append_inj hlabel hlength
    | same => simp at heq
  | same bit hn =>
    cases h' with
    | short => cases heq
    | long => simp at heq
    | same bit' hn' =>
      simp only [List.cons_append, List.cons.injEq, true_and] at heq
      obtain ⟨rfl, hnumber⟩ := heq
      obtain ⟨rfl, hrest⟩ := binary_inj hn hn' hnumber
      exact ⟨rfl, hrest⟩

/-! ## The least of the lengths -/

/-- How many bits the forms of a label take; the third is there for one bit repeated. -/
def costs (k : Nat) (label : Bits) : Set Nat :=
  {c | c = 2 * label.length + 2 ∨ c = 2 + k + label.length ∨
    label ≠ [] ∧ (∃ bit, ∀ b ∈ label, b = bit) ∧ c = 3 + k}

theorem isUniform_iff : isUniform label = true ↔ label ≠ [] ∧ ∃ bit, ∀ b ∈ label, b = bit := by
  cases label with
  | nil => exact iff_of_false nofun fun h => h.1 rfl
  | cons bit rest =>
    simp only [isUniform, List.all_eq_true, beq_iff_eq, ne_eq, reduceCtorEq, not_false_eq_true,
      true_and, List.forall_mem_cons]
    constructor
    · intro h
      exact ⟨bit, rfl, h⟩
    · rintro ⟨_, rfl, h⟩
      exact h

theorem isLeast_length_encode (m : Nat) (label : Bits) :
    IsLeast (costs (lengthWidth m) label) (encode m label).length := by
  rw [encode, length_pieces Builder.isUniform_of_form]
  constructor
  · cases hform : form m label with
    | short => exact .inl rfl
    | long => exact .inr (.inl rfl)
    | same =>
      obtain ⟨hne, hbit⟩ := isUniform_iff.mp (Builder.isUniform_of_form hform)
      exact .inr (.inr ⟨hne, hbit, rfl⟩)
  · have hle (other : Form) (hu : other = .same → isUniform label = true) :
        cost m label.length (form m label) ≤ cost m label.length other := cost_form_le m hu
    rintro _ (rfl | rfl | ⟨hne, hbit, rfl⟩)
    · exact hle .short (by rintro ⟨⟩)
    · exact hle .long (by rintro ⟨⟩)
    · exact hle .same fun _ => isUniform_iff.mpr ⟨hne, hbit⟩

end Label

/-! ## There and back -/

namespace PackedBuilder

/-- **A label is stored** exactly where its least form fits. -/
theorem storeLabel_cases {m : Nat} {label : Bits} (hm : m < 2 ^ 64) (hl : label.length ≤ m)
    {b : Builder} (hb : b.InLimits) :
    if (Label.encode m label).length ≤ b.pack.availableBits then
      storeLabel m label b.pack = .ok () (b.behind (Label.encode m label) []).pack ∧
        (b.behind (Label.encode m label) []).InLimits
    else ∃ e c, storeLabel m label b.pack = .error e c ∧ e.isRefusal = true := by
  have hperforms := performs_storeLabel hm hl
  have hroom : (b.behind (Label.encode m label) []).InLimits ↔
      (Label.encode m label).length ≤ b.pack.availableBits := by
    rw [← hb.canFit_iff, Builder.canFit_iff]
    exact and_iff_left (Nat.zero_le _)
  rcases Builder.stores_label m label b hb with ⟨hfit, hstore⟩ | ⟨hfull, e, c, hstore, he⟩
  · rw [if_pos (hroom.mp hfit)]
    exact ⟨(hperforms.eq_ok_iff hb).mpr ⟨_, hstore, rfl⟩, hfit⟩
  · rw [if_neg (mt hroom.mpr hfull)]
    exact ⟨e, c.pack, (hperforms.eq_error_iff hb).mpr ⟨c, hstore, rfl⟩, he⟩

end PackedBuilder

namespace PackedSlice

variable {m : Nat} {label bits : Bits} {s t : PackedSlice}

theorem loadLabel_eq_ok_iff (hm : m < 2 ^ 64) (hs : s.WellFormed) :
    loadLabel m s = .ok label t ↔ ∃ bits, bits <+: s.unpack.bits ∧
      (label.length ≤ m ∧ Label.Spells (Label.lengthWidth m) label bits) ∧
        t = s.skip bits.length := by
  have hfollows : Follows True (loadLabel m) _ := follows_loadLabel m
  simp only [hfollows.eq_ok_iff (Slice.accepts_label hm) hs, Label.derives_iff_spells]

/-- **A label in any of its forms** is read, and refused if it is too long. -/
theorem loadLabel_of_spells (hm : m < 2 ^ 64) (hs : s.WellFormed)
    (h : Label.Spells (Label.lengthWidth m) label bits) (hbits : bits <+: s.unpack.bits) :
    if label.length ≤ m then loadLabel m s = .ok label (s.skip bits.length)
    else ∃ e t, loadLabel m s = .error e t ∧ e.isRefusal = true := by
  split
  · next hl => exact (loadLabel_eq_ok_iff hm hs).mpr ⟨bits, hbits, ⟨hl, h⟩, rfl⟩
  · next hl =>
    cases hload : loadLabel m s with
    | ok label' t =>
      -- the bits begin with no other label
      obtain ⟨bits', hbits', ⟨hl', h'⟩, -⟩ := (loadLabel_eq_ok_iff hm hs).mp hload
      obtain ⟨rest, hrest⟩ := hbits
      obtain ⟨rest', hrest'⟩ := hbits'
      obtain ⟨rfl, -⟩ := h.unique h' (hrest.trans hrest'.symm)
      exact absurd hl' hl
    | error e t =>
      have hfollows : Follows True (loadLabel m) _ := follows_loadLabel m
      exact ⟨e, t, rfl, hfollows.refuses (Slice.accepts_label hm) hs hload⟩

/-- **A label comes back** from where it was stored, whatever is stored behind it. -/
theorem loadLabel_behind (hm : m < 2 ^ 64) (hl : label.length ≤ m) {b : Builder}
    (hb : (b.behind (Label.encode m label) []).InLimits) (later : List StoreOp)
    (made : ∀ ref ∈ (StoreOp.runAll later (b.behind (Label.encode m label) []).pack).refs, ref.Made)
    {kind : CellKind} {cell : Cell}
    (hcell : (StoreOp.runAll later (b.behind (Label.encode m label) []).pack).endExoticCell kind =
      .ok cell) {r : Nat} (hr : r ≤ cell.refs.length) :
    loadLabel m ⟨cell, b.pack.length, r⟩ =
      .ok label ⟨cell, (b.behind (Label.encode m label) []).pack.length, r⟩ := by
  obtain ⟨hlater, hgrows⟩ := StoreOp.runAll_pack later hb
  rw [hlater] at made hcell
  rw [PackedBuilder.endExoticCell_pack hgrows.inLimits] at hcell
  -- what is stored later stands behind the label as the rest of the bits
  obtain ⟨rest, hrest⟩ := hgrows.bits
  have hbits : cell.bits = b.bits ++ (Label.encode m label ++ rest) := by
    rw [Cell.bits_make hcell, ← hrest, Builder.behind, List.append_assoc]
  have hrefs := Cell.refs_make hcell
  have hs : WellFormed ⟨cell, b.pack.length, r⟩ := by
    refine ⟨Cell.made_iff.mpr ⟨Cell.sound_of_make hcell, by rwa [hrefs]⟩, ?_, hr⟩
    rw [hbits, List.length_append]
    exact Nat.le_add_right ..
  have hunpack : (unpack ⟨cell, b.pack.length, r⟩).bits = Label.encode m label ++ rest := by
    change cell.bits.drop b.bits.length = _
    rw [hbits, List.drop_left]
  have hspells := (Label.derives_iff_spells.mp (Label.derives_encode hl)).2
  have hload := loadLabel_of_spells hm hs hspells (hunpack ▸ List.prefix_append ..)
  rw [if_pos hl] at hload
  rw [hload, skip]
  congr 2
  exact List.length_append.symm

end PackedSlice

namespace Label

open PackedBuilder PackedSlice

/-- **Labels are shortest and delimit themselves.** With `m` bits of the key to come, a label of no
more is stored in any builder exactly where the least of its forms fits, as one of its forms in just
so many bits; whatever is stored behind it, it is loaded from that position in the cell that is
made, up to its end. Of bits that begin with any form of any label, a load gives the label and stops
behind it if it is no longer than `m`, and refuses it otherwise; so whatever a load gives is such a
label, of which it has taken a form. -/
theorem shortest_self_delimiting {m : Nat} (hm : m < 2 ^ 64) :
    (∀ (label : Bits) (b : PackedBuilder), label.length ≤ m → b.WellFormed →
      ∃ least, IsLeast (costs (Nat.size m) label) least ∧
        if least ≤ b.availableBits then
          ∃ bits b', Spells (Nat.size m) label bits ∧ bits.length = least ∧
            storeLabel m label b = .ok () b' ∧ b'.bits = b.bits ++ bits ∧
            b'.length = b.length + least ∧ b'.refs = b.refs ∧
            ∀ later : List StoreOp, (∀ ref ∈ (StoreOp.runAll later b').refs, ref.Made) →
              ∀ kind cell, (StoreOp.runAll later b').endExoticCell kind = .ok cell →
                ∀ r ≤ cell.refs.length,
                  loadLabel m ⟨cell, b.length, r⟩ = .ok label ⟨cell, b'.length, r⟩
        else ∃ e b', storeLabel m label b = .error e b' ∧ e.isRefusal = true) ∧
    (∀ (s : PackedSlice) (label bits : Bits), s.WellFormed → Spells (Nat.size m) label bits →
      bits <+: s.unpack.bits →
        if label.length ≤ m then loadLabel m s = .ok label (s.skip bits.length)
        else ∃ e t, loadLabel m s = .error e t ∧ e.isRefusal = true) ∧
    ∀ (s t : PackedSlice) (label : Bits), s.WellFormed → loadLabel m s = .ok label t →
      label.length ≤ m ∧ ∃ bits, Spells (Nat.size m) label bits ∧ bits <+: s.unpack.bits ∧
        t = s.skip bits.length := by
  simp only [← lengthWidth_eq_size]
  refine ⟨fun label b hl hb => ⟨_, isLeast_length_encode m label, ?_⟩,
    fun s label bits hs h hbits => loadLabel_of_spells hm hs h hbits, fun s t label hs hload => ?_⟩
  · obtain ⟨hlimits, heq⟩ := hb.eq_pack
    generalize b.unpack = u at hlimits heq
    subst heq
    have hcases := storeLabel_cases hm hl hlimits
    split at hcases
    · next hfit =>
      obtain ⟨hstore, hbehind⟩ := hcases
      rw [if_pos hfit]
      refine ⟨_, _, (derives_iff_spells.mp (derives_encode hl)).2, rfl, hstore, ?_,
        List.length_append, List.append_nil _, fun later made kind cell hcell r hr =>
          loadLabel_behind hm hl hbehind later made hcell hr⟩
      rw [bits_pack, bits_pack]
      rfl
    · next hfull =>
      rw [if_neg hfull]
      exact hcases
  · obtain ⟨bits, hbits, ⟨hl, h⟩, ht⟩ := (loadLabel_eq_ok_iff hm hs).mp hload
    exact ⟨hl, bits, h, hbits, ht⟩

/-- With eight bits to come, five ones are stored in seven bits and loaded from these. -/
theorem shortest_self_delimiting_ones : ∃ cell : Cell,
    IsLeast (costs (Nat.size 8) (List.replicate 5 true)) 7 ∧
      storeLabel 8 (List.replicate 5 true) .empty = .ok () ⟨[0xea], 7, []⟩ ∧
      (⟨[0xea], 7, []⟩ : PackedBuilder).endCell = .ok cell ∧
      loadLabel 8 (.ofCell cell) = .ok (List.replicate 5 true) ⟨cell, 7, 0⟩ := by
  have hempty : PackedBuilder.empty.WellFormed := ⟨by decide, by decide, rfl, nofun⟩
  have hstore : storeLabel 8 (List.replicate 5 true) .empty = .ok () ⟨[0xea], 7, []⟩ := rfl
  obtain ⟨cell, hcell⟩ : ∃ cell : Cell, (⟨[0xea], 7, []⟩ : PackedBuilder).endCell = .ok cell :=
    ⟨_, rfl⟩
  obtain ⟨hstored, -, -⟩ := shortest_self_delimiting (m := 8) (by decide)
  obtain ⟨least, hleast, hcases⟩ :=
    hstored (List.replicate 5 true) .empty (by decide) hempty
  split at hcases
  · obtain ⟨bits, b', -, -, hb', -, hlength, -, hload⟩ := hcases
    rw [hstore] at hb'
    cases hb'
    obtain rfl : least = 7 := by simpa [PackedBuilder.empty] using hlength.symm
    exact ⟨cell, hleast, hstore, hcell, hload [] nofun .ordinary cell hcell 0 (Nat.zero_le _)⟩
  · obtain ⟨e, b', hb', -⟩ := hcases
    rw [hstore] at hb'
    cases hb'

end Label

end BagOfCells
