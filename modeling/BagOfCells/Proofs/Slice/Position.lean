import BagOfCells.Proofs.Slice.Packing
import BagOfCells.Proofs.Wire.Rest

/-!
# Positions in a cell

A packed slice is two positions in a cell. They stay within it and never move back. A load of some
bits gives what the next ones stand for and moves on by just these, or underflows where there are
fewer and moves nowhere.

## Main definitions

* `PackedSlice.WellFormed`, `PackedSlice.Ahead`: positions within a cell, and positions further on
* `PackedSlice.skip`, `PackedSlice.pass`, `PackedSlice.finish`: positions further on by some bits,
  by some references and by everything
* `PackedSlice.Peeks load n value`, `PackedSlice.Takes load n value`: loads of the next `n` bits

## Main results

* `PackedSlice.peeks_bits`, `PackedSlice.takes_bits` and their like: each load of bits
-/

namespace BagOfCells

open Outcome

namespace PackedSlice

variable {α β : Type}

/-! ## Positions within a cell -/

/-- Positions within a made cell. -/
structure WellFormed (s : PackedSlice) : Prop where
  made : s.cell.Made
  bits : s.bitPosition ≤ s.cell.bits.length
  refs : s.refPosition ≤ s.cell.refs.length

/-- Positions within the same cell of which neither is further back. -/
structure Ahead (s t : PackedSlice) : Prop where
  wellFormed : t.WellFormed
  cell : t.cell = s.cell
  bits : s.bitPosition ≤ t.bitPosition
  refs : s.refPosition ≤ t.refPosition

/-- The slice `n` bits further on. -/
def skip (s : PackedSlice) (n : Nat) : PackedSlice := { s with bitPosition := s.bitPosition + n }

variable {s t u : PackedSlice} {n : Nat}

theorem wellFormed_ofCell {cell : Cell} (h : cell.Made) : (ofCell cell).WellFormed :=
  ⟨h, Nat.zero_le _, Nat.zero_le _⟩

theorem WellFormed.ahead (h : s.WellFormed) : s.Ahead s :=
  ⟨h, rfl, le_rfl, le_rfl⟩

theorem Ahead.trans (h : s.Ahead t) (h' : t.Ahead u) : s.Ahead u :=
  ⟨h'.wellFormed, h'.cell.trans h.cell, h.bits.trans h'.bits, h.refs.trans h'.refs⟩

theorem WellFormed.unpack_made (h : s.WellFormed) : s.unpack.Made :=
  ⟨h.made, fun _ hr => h.made.refs (List.mem_of_mem_drop hr)⟩

theorem length_unpack_bits (s : PackedSlice) :
    s.unpack.bits.length = s.cell.bits.length - s.bitPosition :=
  List.length_drop

theorem length_unpack_refs (s : PackedSlice) :
    s.unpack.refs.length = s.cell.refs.length - s.refPosition :=
  List.length_drop

/-- A cell holds far fewer bits than a machine word counts. -/
theorem WellFormed.bits_lt (h : s.WellFormed) : s.cell.bits.length < Bits.bound 64 := by
  have hle := h.made.sound.bits_le
  rw [Cell.maxBits] at hle
  rw [Bits.bound_eq]
  omega

theorem unpack_skip (s : PackedSlice) (n : Nat) :
    (s.skip n).unpack = { s.unpack with bits := s.unpack.bits.drop n } := by
  simp only [skip, unpack, List.drop_drop]

theorem WellFormed.ahead_skip (h : s.WellFormed) (hn : n ≤ s.unpack.bits.length) :
    s.Ahead (s.skip n) := by
  have hbits := h.bits
  rw [length_unpack_bits] at hn
  exact ⟨⟨h.made, by simp only [skip]; omega, h.refs⟩, rfl, Nat.le_add_right .., le_rfl⟩

/-- The slice `n` references further on. -/
def pass (s : PackedSlice) (n : Nat) : PackedSlice := { s with refPosition := s.refPosition + n }

theorem unpack_pass (s : PackedSlice) (n : Nat) :
    (s.pass n).unpack = { s.unpack with refs := s.unpack.refs.drop n } := by
  simp only [pass, unpack, List.drop_drop]

theorem pass_pass (s : PackedSlice) (m n : Nat) : (s.pass m).pass n = s.pass (m + n) := by
  simp only [pass, Nat.add_assoc]

theorem WellFormed.ahead_pass (h : s.WellFormed) (hn : n ≤ s.unpack.refs.length) :
    s.Ahead (s.pass n) := by
  have hrefs := h.refs
  rw [length_unpack_refs] at hn
  exact ⟨⟨h.made, h.bits, by simp only [pass]; omega⟩, rfl, le_rfl, Nat.le_add_right ..⟩

/-- The slice behind everything. -/
def finish (s : PackedSlice) : PackedSlice := ⟨s.cell, s.cell.bits.length, s.cell.refs.length⟩

theorem unpack_finish (s : PackedSlice) : s.finish.unpack = ⟨s.cell, [], []⟩ := by
  simp only [finish, unpack, List.drop_length]

theorem WellFormed.ahead_finish (h : s.WellFormed) : s.Ahead s.finish :=
  ⟨⟨h.made, le_rfl, le_rfl⟩, rfl, h.bits, h.refs⟩

theorem finish_eq (hs : s.WellFormed) :
    (s.skip s.unpack.bits.length).pass s.unpack.refs.length = s.finish := by
  have hbits := hs.bits
  have hrefs := hs.refs
  rw [length_unpack_bits, length_unpack_refs, skip, pass, finish, Nat.add_sub_cancel' hbits,
    Nat.add_sub_cancel' hrefs]

/-- Where nothing is left, the positions are at the end. -/
theorem WellFormed.eq_of_unpack {cell : Cell} (h : s.WellFormed)
    (hs : s.unpack = ⟨cell, [], []⟩) : s = ⟨cell, cell.bits.length, cell.refs.length⟩ := by
  obtain ⟨rfl, hbits, hrefs⟩ := Slice.mk.inj hs
  have hbit := h.bits.antisymm (List.drop_eq_nil_iff.mp hbits)
  have href := h.refs.antisymm (List.drop_eq_nil_iff.mp hrefs)
  rw [← hbit, ← href]

/-! ## Loads of the next bits -/

/-- A load gives what the next `n` bits stand for and leaves them in place; it underflows exactly
when there are fewer. -/
def Peeks (load : PackedLoad α) (n : Nat) (value : Bits → α) : Prop :=
  ∀ s : PackedSlice, s.WellFormed → load s =
    if n ≤ s.unpack.bits.length then .ok (value (s.unpack.bits.take n)) s
    else .error (.underflow n s.unpack.bits.length) s

/-- A load gives what the next `n` bits stand for and moves on behind them; it underflows exactly
when there are fewer, and then moves nowhere. -/
def Takes (load : PackedLoad α) (n : Nat) (value : Bits → α) : Prop :=
  ∀ s : PackedSlice, s.WellFormed → load s =
    if n ≤ s.unpack.bits.length then .ok (value (s.unpack.bits.take n)) (s.skip n)
    else .error (.underflow n s.unpack.bits.length) s

variable {load : PackedLoad α} {value : Bits → α}

theorem remainingBits_eq (h : s.WellFormed) :
    remainingBits s = .ok s.unpack.bits.length s := by
  change (ofExcept (Checked.minus s.cell.bits.length s.bitPosition) : PackedLoad Nat) s = _
  rw [Checked.minus_eq_ok h.bits, length_unpack_bits]
  rfl

theorem remainingRefs_eq (h : s.WellFormed) :
    remainingRefs s = .ok s.unpack.refs.length s := by
  change (ofExcept (Checked.minus s.cell.refs.length s.refPosition) : PackedLoad Nat) s = _
  rw [Checked.minus_eq_ok h.refs, length_unpack_refs]
  rfl

theorem peeks_ensureBits (n : Nat) : Peeks (ensureBits n) n fun _ => () := by
  intro s hs
  rw [ensureBits, run_bind_of_ok (remainingBits_eq hs)]
  split
  · next h => rw [if_neg (not_le.mpr h)]; rfl
  · next h => rw [if_pos (not_lt.mp h)]; rfl

theorem advance_eq (hs : s.WellFormed) (hn : n ≤ s.unpack.bits.length) :
    advance n s = .ok () (s.skip n) := by
  have hword : s.bitPosition + n < Bits.bound 64 :=
    lt_of_le_of_lt (hs.ahead_skip hn).wellFormed.bits hs.bits_lt
  change (ofExcept (Checked.word (s.bitPosition + n)) >>= _ : PackedLoad Unit) s = _
  rw [Checked.word_eq_ok hword]
  rfl

/-- A look for bits in front of what gives them. -/
theorem Peeks.of_ensureBits {next : Unit → PackedLoad α}
    (h : ∀ s, s.WellFormed → n ≤ s.unpack.bits.length →
      next () s = .ok (value (s.unpack.bits.take n)) s) :
    Peeks (ensureBits n >>= next) n value := by
  intro s hs
  have hensure := peeks_ensureBits n s hs
  split
  · next hn =>
    rw [if_pos hn] at hensure
    rw [run_bind_of_ok hensure, h s hs hn]
  · next hn =>
    rw [if_neg hn] at hensure
    exact run_bind_of_error hensure

/-- What is looked at is passed over. -/
theorem Peeks.advance (h : Peeks load n value) :
    Takes (do let a ← load; advance n; return a) n value := by
  intro s hs
  have hload := h s hs
  split
  · next hn =>
    rw [if_pos hn] at hload
    rw [run_bind_of_ok hload, run_bind_of_ok (advance_eq hs hn)]
    rfl
  · next hn =>
    rw [if_neg hn] at hload
    exact run_bind_of_error hload

theorem Takes.bind_pure {next : α → PackedLoad β} {value' : Bits → β} (h : Takes load n value)
    (hn : ∀ bits, bits.length = n → next (value bits) = pure (value' bits)) :
    Takes (load >>= next) n value' := by
  intro s hs
  have hload := h s hs
  split
  · next hle =>
    rw [if_pos hle] at hload
    rw [run_bind_of_ok hload, hn _ (List.length_take_of_le hle)]
    rfl
  · next hle =>
    rw [if_neg hle] at hload
    exact run_bind_of_error hload

/-- **Bits in bytes**, from any bit on. -/
theorem peeks_bits (n : Nat) : Peeks (peekBits n) n Bits.pack := by
  refine Peeks.of_ensureBits fun s hs hn => ?_
  rw [length_unpack_bits] at hn
  have hwithin : s.bitPosition + n ≤ s.cell.bits.length := by
    have := hs.bits
    omega
  have hbytes := trim_byteAt hwithin
  obtain ⟨bytes, hread, htrim⟩ := bind_eq_ok_iff.mp hbytes
  change (ofExcept ((List.range ((n + 7) / 8)).mapM fun i =>
    byteAt s.cell.data (s.bitPosition % 8) (s.bitPosition / 8 + i)) >>= fun bytes =>
      ofExcept (PackedBuilder.trim n bytes) : PackedLoad Bytes) s = _
  rw [Cell.data, hread]
  change (ofExcept (PackedBuilder.trim n bytes) : PackedLoad Bytes) s = _
  rw [htrim]
  rfl

theorem takes_bits (n : Nat) : Takes (loadBits n) n Bits.pack :=
  (peeks_bits n).advance

theorem takes_skipBits (n : Nat) : Takes (skipBits n) n fun _ => () := by
  have h : Takes (do ensureBits n; advance n; return ()) n fun _ => () :=
    (peeks_ensureBits n).advance
  simp only [bind_pure_unit] at h
  exact h

theorem takes_bit : Takes loadBit 1 fun bits => bits.headD false := by
  have hpeek : Peeks (do ensureBits 1; bitAt (← get).bitPosition) 1 fun bits => bits.headD false :=
    Peeks.of_ensureBits fun s _ hn => by
      rw [length_unpack_bits] at hn
      have hlt : s.bitPosition < s.cell.bits.length := by omega
      change bitAt s.bitPosition s = _
      rw [bitAt_eq (List.getElem?_eq_getElem hlt), unpack, List.drop_eq_getElem_cons hlt]
      rfl
  have htakes := hpeek.advance
  rwa [bind_assoc] at htakes

theorem takes_bytes {n : Nat} (h : 8 * n < 2 ^ 64) : Takes (loadBytes n) (8 * n) Bits.pack := by
  intro s hs
  have hlength : (checkedLength (8 * n) : PackedLoad Nat) s = .ok (8 * n) s := by
    rw [checkedLength, if_pos (by rwa [Bits.bound_eq])]
    rfl
  rw [loadBytes, run_bind_of_ok hlength]
  exact takes_bits (8 * n) s hs

/-- **Bits in a machine word.** -/
theorem peeks_word {width : Nat} (h : width ≤ 64) : Peeks (peekWord width) width Bits.toWord := by
  unfold peekWord
  rw [if_neg (Nat.not_lt.mpr h)]
  refine Peeks.of_ensureBits fun s hs hn => ?_
  rw [length_unpack_bits] at hn
  exact foldlM_bitAt (by have := hs.bits; omega)

theorem takes_word {width : Nat} (h : width ≤ 64) : Takes (loadWord width) width Bits.toWord :=
  (peeks_word h).advance

theorem takes_signedWord {width : Nat} (h : width ≤ 64) :
    Takes (loadSignedWord width) width fun bits => Int64.ofInt bits.toInt := by
  unfold loadSignedWord
  rw [if_neg (Nat.not_lt.mpr h)]
  cases width with
  | zero =>
    intro s hs
    rw [if_pos (Nat.zero_le _)]
    rfl
  | succ width =>
    refine (takes_word h).bind_pure fun bits hl => ?_
    rw [Slice.signExtend_toWord hl h]

theorem takes_nat (width : Nat) : Takes (loadNat width) width Bits.toNat := by
  unfold loadNat
  split
  · next h =>
    subst h
    intro s hs
    rw [if_pos (Nat.zero_le _)]
    rfl
  · refine (takes_bits width).bind_pure fun bits hl => ?_
    have hle : width ≤ 8 * (Bits.pack bits).length := by
      rw [Bits.length_pack, hl]
      omega
    have hnat := Bits.toNat_pack_shiftRight bits
    rw [hl] at hnat
    rw [Checked.minus_eq_ok hle, ← hnat]
    rfl

end PackedSlice

end BagOfCells
