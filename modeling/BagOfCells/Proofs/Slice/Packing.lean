import BagOfCells.Proofs.Builder.Packing
import BagOfCells.Slice.Packed
import Mathlib.Data.Nat.Bitwise

/-!
# Bits taken out of bytes

The eight bits that begin within a byte are its low part and the high part of the byte behind it;
behind the last byte come zeros. So bytes read one after the other from any bit on spell the bits
from there on, and with the rest of the last byte cut off they are these bits, packed again. A
machine word is put together from single bits, and a number is what its bytes spell without the
zeros at their end.

## Main results

* `PackedSlice.byteAt_eq`: the byte that begins within a byte
* `PackedSlice.mapM_byteAt`, `PackedSlice.trim_byteAt`: bytes one after the other, and cut off
* `PackedSlice.bitAt_eq`, `PackedSlice.foldlM_bitAt`: single bits and words of them
* `Bits.toNat_pack_shiftRight`: the number of packed bits
* `Slice.signExtend_toWord`: the number of a word in two's complement
-/

namespace BagOfCells

open Outcome

namespace Bits

/-! ## The bits at a place -/

theorem getElem?_ofNat {width k : Nat} (h : k < width) (n : Nat) :
    (ofNat width n)[k]? = some (n.testBit (width - 1 - k)) := by
  induction width generalizing k with
  | zero => cases h
  | succ width ih =>
    cases k with
    | zero => rfl
    | succ k =>
      rw [ofNat, List.getElem?_cons_succ, ih (Nat.lt_of_succ_lt_succ h)]
      congr 2
      omega

theorem ofBytes_drop (bytes : Bytes) (n : Nat) :
    ofBytes (bytes.drop n) = (ofBytes bytes).drop (8 * n) := by
  have hsplit : ofBytes (bytes.take n) ++ ofBytes (bytes.drop n) = ofBytes bytes := by
    rw [← ofBytes_append, List.take_append_drop]
  rcases Nat.le_total n bytes.length with h | h
  · rw [← hsplit, List.drop_left']
    rw [length_ofBytes, List.length_take_of_le h]
  · rw [List.drop_eq_nil_of_le h, List.drop_eq_nil_of_le (by rw [length_ofBytes]; omega)]
    rfl

/-- The bit of a byte at a place, first bit first. -/
theorem shiftRight_and_one_byte (byte : UInt8) {k : Nat} (h : k < 8) :
    (((byte >>> (7 - k).toUInt8) &&& 1) == 1) = byte.toNat.testBit (7 - k) := by
  have hk : (7 - k).toUInt8.toNat % 8 = 7 - k := toNat_toUInt8 (by omega)
  rw [Nat.testBit, Bool.eq_iff_iff, beq_iff_eq, ← UInt8.toNat_inj]
  simp only [UInt8.toNat_and, UInt8.toNat_shiftRight, hk, UInt8.toNat_one, Nat.and_one_is_mod,
    Nat.one_and_eq_mod_two, bne_iff_ne]
  omega

/-- **Two bytes, joined**: the low part of the first one and the high part of the second one. -/
theorem ofNat_joined (high low : UInt8) {s : Nat} (h : s < 8) :
    ofNat 8 (high <<< s.toUInt8 ||| if s = 0 then 0 else low >>> (8 - s).toUInt8).toNat =
      (ofNat 8 high.toNat).drop s ++ (ofNat 8 low.toNat).take s := by
  have hdrop : ((ofNat 8 high.toNat).drop s).length = 8 - s := by
    rw [List.length_drop, length_ofNat]
  rw [UInt8.toNat_or, ofNat_or, ofNat_byte_shiftLeft high h]
  split
  · next h0 =>
    subst h0
    rw [List.take_zero, List.append_nil, List.replicate_zero, List.append_nil]
    exact zipWith_or_replicate_right _ hdrop
  · next h0 =>
    have htake : ((ofNat 8 low.toNat).take s).length = s :=
      List.length_take_of_le (by rw [length_ofNat]; exact h.le)
    -- each part falls on the zeros beside the other one
    rw [ofNat_byte_shiftRight low (by omega), Nat.sub_sub_self h.le,
      List.zipWith_append (by rw [hdrop, List.length_replicate]),
      zipWith_or_replicate_right _ hdrop, zipWith_or_replicate_left _ htake]

/-! ## Whole bytes of bits -/

/-- Bits in whole bytes, each of eight of them. -/
theorem pack_eq_map {bits : Bits} {size : Nat} (h : bits.length = 8 * size) :
    pack bits = (List.range size).map fun i => toByte ((bits.drop (8 * i)).take 8) := by
  induction size generalizing bits with
  | zero => rw [List.length_eq_zero_iff.mp h]; rfl
  | succ size ih =>
    match bits, h with
    | b₀ :: b₁ :: b₂ :: b₃ :: b₄ :: b₅ :: b₆ :: b₇ :: rest, h =>
      have hrest : rest.length = 8 * size := by
        simp only [List.length_cons] at h
        omega
      rw [pack, ih hrest, List.range_succ_eq_map, List.map_cons, List.map_map]
      rfl

/-- The number that some bytes spell is that of their bits. -/
theorem toNat_ofBytes (bytes : Bytes) : toNat (ofBytes bytes) = Bytes.toNat bytes := by
  induction bytes with
  | nil => rfl
  | cons byte bytes ih =>
    rw [ofBytes_cons, toNat_append, toNat_ofNat byte.toNat_lt, ih, length_ofBytes, Nat.pow_mul,
      Bytes.toNat_cons]

theorem toNat_replicate_false (n : Nat) : toNat (List.replicate n false) = 0 := by
  rw [← ofNat_zero, toNat_ofNat (Nat.two_pow_pos n)]

/-- **The number of packed bits** is left when the zeros behind them are moved out. -/
theorem toNat_pack_shiftRight (bits : Bits) :
    Bytes.toNat (pack bits) >>> (8 * (pack bits).length - bits.length) = toNat bits := by
  have htail : 8 * (pack bits).length - bits.length = (8 - bits.length % 8) % 8 := by
    rw [length_pack]
    omega
  rw [← toNat_ofBytes, ofBytes_pack, htail, toNat_append, toNat_replicate_false,
    List.length_replicate, Nat.add_zero, Nat.shiftRight_eq_div_pow,
    Nat.mul_div_cancel _ (Nat.two_pow_pos _)]

/-- Whole bytes spell the number that their bits spell. -/
theorem toNat_pack {bits : Bits} {n : Nat} (h : bits.length = 8 * n) :
    Bytes.toNat (pack bits) = toNat bits := by
  have hshift := toNat_pack_shiftRight bits
  rwa [length_pack, h, show 8 * ((8 * n + 7) / 8) - 8 * n = 0 by omega, Nat.shiftRight_zero]
    at hshift

end Bits

namespace PackedSlice

/-! ## Bytes -/

variable {data : Bytes} {shift index : Nat}

/-- **The byte that begins within a byte**: the eight bits from there on, with zeros behind the
last byte. -/
theorem byteAt_eq (hs : shift < 8) (hi : index < data.length) :
    byteAt data shift index =
      .ok (Bits.toByte (((Bits.ofBytes (data ++ [0])).drop (8 * index + shift)).take 8)) := by
  obtain ⟨next, rest, hdrop, hnext⟩ : ∃ next rest,
      (data ++ [0]).drop index = data[index] :: next :: rest ∧
        ((data[index + 1]?).elim 0 fun next => next >>> (8 - shift).toUInt8) =
          next >>> (8 - shift).toUInt8 := by
    rw [List.drop_append_of_le_length hi.le, List.drop_eq_getElem_cons hi]
    rcases Nat.lt_or_ge (index + 1) data.length with hlt | hge
    · rw [List.drop_eq_getElem_cons hlt, List.getElem?_eq_getElem hlt]
      exact ⟨_, _, rfl, rfl⟩
    · rw [List.drop_eq_nil_of_le hge, List.getElem?_eq_none hge]
      exact ⟨0, [], rfl, UInt8.zero_shiftRight.symm⟩
  have hbits : (Bits.ofBytes (data ++ [0])).drop (8 * index + shift) =
      (Bits.ofNat 8 data[index].toNat).drop shift ++
        (Bits.ofNat 8 next.toNat ++ Bits.ofBytes rest) := by
    rw [← List.drop_drop, ← Bits.ofBytes_drop, hdrop, Bits.ofBytes_cons, Bits.ofBytes_cons,
      List.drop_append_of_le_length (by rw [Bits.length_ofNat]; exact hs.le)]
  have hlen : ((Bits.ofNat 8 data[index].toNat).drop shift).length = 8 - shift := by
    rw [List.length_drop, Bits.length_ofNat]
  unfold byteAt
  rw [Checked.item_eq_ok hi, hnext]
  change Except.ok _ = _
  rw [hbits, List.take_append, hlen, List.take_of_length_le (by omega), Nat.sub_sub_self hs.le,
    List.take_append_of_le_length (by rw [Bits.length_ofNat]; exact hs.le),
    ← Bits.ofNat_joined _ _ hs, Bits.toByte_ofNat]

/-- **Bytes one after the other** from a bit on. -/
theorem mapM_byteAt {start size : Nat} (h : start / 8 + size ≤ data.length) :
    (List.range size).mapM (fun i => byteAt data (start % 8) (start / 8 + i)) =
      .ok (Bits.pack (((Bits.ofBytes (data ++ [0])).drop start).take (8 * size))) := by
  have hlen : (((Bits.ofBytes (data ++ [0])).drop start).take (8 * size)).length = 8 * size := by
    rw [List.length_take_of_le]
    rw [List.length_drop, Bits.length_ofBytes, List.length_append, List.length_singleton]
    omega
  rw [Bits.pack_eq_map hlen]
  refine mapM_eq_map fun i hi => ?_
  rw [List.mem_range] at hi
  rw [byteAt_eq (Nat.mod_lt _ (by decide)) (by omega), List.drop_take, List.take_take,
    List.drop_drop, Nat.min_eq_left (by omega)]
  congr 4
  omega

/-- **The bits from a bit on**, cut off behind the last one. -/
theorem trim_byteAt {bits : Bits} {start n : Nat} (h : start + n ≤ bits.length) :
    (do
      let bytes ← (List.range ((n + 7) / 8)).mapM fun i =>
        byteAt (Bits.pack bits) (start % 8) (start / 8 + i)
      PackedBuilder.trim n bytes) = .ok (Bits.pack ((bits.drop start).take n)) := by
  have hsize : start / 8 + (n + 7) / 8 ≤ (Bits.pack bits).length := by
    rw [Bits.length_pack]
    omega
  rw [mapM_byteAt hsize]
  -- the bytes that are put together hold the bits, and up to seven more behind them
  have hlen : (((Bits.ofBytes (Bits.pack bits ++ [0])).drop start).take
      (8 * ((n + 7) / 8))).length = 8 * ((n + 7) / 8) := by
    refine List.length_take_of_le ?_
    rw [List.length_drop, Bits.length_ofBytes, List.length_append, List.length_singleton]
    omega
  have hspell : (((Bits.ofBytes (Bits.pack bits ++ [0])).drop start).take
      (8 * ((n + 7) / 8))).take n = (bits.drop start).take n := by
    rw [List.take_take, Nat.min_eq_left (by omega), Bits.ofBytes_append, Bits.ofBytes_pack,
      List.append_assoc, List.drop_append_of_le_length (by omega),
      List.take_append_of_le_length (by rw [List.length_drop]; omega)]
  change PackedBuilder.trim n (Bits.pack _) = _
  rw [PackedBuilder.trim_eq (by rw [Bits.length_pack, hlen]; omega), Bits.ofBytes_pack,
    List.take_append_of_le_length (by rw [hlen]; omega), hspell]

/-! ## Single bits -/

variable {s : PackedSlice} {position start width : Nat} {bit : Bool}

/-- **The bit at a position.** -/
theorem bitAt_eq (h : s.cell.bits[position]? = some bit) : bitAt position s = .ok bit s := by
  have hlt : position < s.cell.bits.length := (List.getElem?_eq_some_iff.mp h).1
  have hi : position / 8 < s.cell.data.length := by
    rw [Cell.data, Bits.length_pack]
    omega
  -- the bit is one of the byte it is in
  have hbyte : (Bits.ofNat 8 s.cell.data[position / 8].toNat)[position % 8]? = some bit := by
    have hspell : (Bits.ofBytes s.cell.data)[position]? = some bit := by
      rw [Cell.data, Bits.ofBytes_pack, List.getElem?_append_left hlt, h]
    rw [← Nat.div_add_mod position 8, ← List.getElem?_drop, ← Bits.ofBytes_drop,
      List.drop_eq_getElem_cons hi, Bits.ofBytes_cons, List.getElem?_append_left] at hspell
    · exact hspell
    · rw [Bits.length_ofNat]
      exact Nat.mod_lt _ (by decide)
  have hmod : position % 8 < 8 := Nat.mod_lt _ (by decide)
  rw [Bits.getElem?_ofNat hmod] at hbyte
  have hitem : (do ofExcept (Checked.item (← get).cell.data (position / 8)) : PackedLoad UInt8) s =
      .ok s.cell.data[position / 8] s := by
    change (ofExcept (Checked.item s.cell.data (position / 8)) : PackedLoad UInt8) s = _
    rw [Checked.item_eq_ok hi]
    rfl
  unfold bitAt
  rw [← bind_assoc, run_bind_of_ok hitem, Bits.shiftRight_and_one_byte _ hmod,
    Option.some.inj hbyte]
  rfl

/-- **A machine word**, bit by bit. -/
theorem foldlM_bitAt (h : start + width ≤ s.cell.bits.length) :
    ((List.range width).foldlM (fun word i => do
      let bit ← bitAt (start + i)
      return (word <<< 1) ||| bit.toUInt64) 0 : PackedLoad UInt64) s =
      .ok (Bits.toWord ((s.cell.bits.drop start).take width)) s := by
  induction width with
  | zero => rfl
  | succ width ih =>
    have hlt : start + width < s.cell.bits.length := by omega
    have hbit : (s.cell.bits.drop start)[width]? = some s.cell.bits[start + width] := by
      rw [List.getElem?_drop, List.getElem?_eq_getElem hlt]
    rw [List.range_succ, List.foldlM_append, run_bind_of_ok (ih (by omega)), List.foldlM_cons,
      bind_assoc, run_bind_of_ok (bitAt_eq (List.getElem?_eq_getElem hlt)), List.take_add_one, hbit,
      Bits.toWord, Bits.toWord, Option.toList_some, List.foldl_append]
    rfl

end PackedSlice

/-! ## Two's complement -/

namespace Bits

/-- **A number in two's complement** reads back. -/
theorem toInt_ofInt {v : Int} {width : Nat} (h : -2 ^ width ≤ v ∧ v < 2 ^ width) :
    toInt (ofInt (width + 1) v) = v := by
  have hb : ((bound (width + 1) : Nat) : Int) = 2 ^ (width + 1) := by
    rw [bound_eq]
    norm_cast
  rw [toInt, head?_ofInt h, toNat_ofInt h, length_ofInt, hb]
  by_cases hv : v < 0
  · rw [if_pos hv, decide_eq_true hv, if_pos rfl, Int.add_sub_cancel]
  · rw [if_neg hv, decide_eq_false hv, if_neg (by decide)]

/-- The first bit is the highest one of the number. -/
theorem head?_eq_testBit {bits : Bits} {width : Nat} (h : bits.length = width + 1) :
    bits.head? = some ((toNat bits).testBit width) := by
  conv_lhs => rw [← ofNat_toNat bits, h]
  rfl

end Bits

namespace Slice

theorem toInt64_eq_ofInt {word : UInt64} {v : Int} (h : v % 2 ^ 64 = word.toNat) :
    word.toInt64 = Int64.ofInt v := by
  rw [← Int64.toBitVec_inj]
  refine BitVec.eq_of_toNat_eq ?_
  change word.toNat = (BitVec.ofInt 64 v).toNat
  rw [BitVec.toNat_ofInt]
  change _ = (v % 2 ^ 64).toNat
  rw [h, Int.toNat_natCast]

theorem toNat_ones_shiftLeft {width : Nat} (h : width < 64) :
    ((0xffffffffffffffff : UInt64) <<< width.toUInt64).toNat = 2 ^ 64 - 2 ^ width := by
  -- a width is one of 64 numbers
  revert width
  decide

/-- **The number of a word** in two's complement. -/
theorem signExtend_toWord {bits : Bits} {width : Nat} (hl : bits.length = width + 1)
    (h : width < 64) : signExtend (width + 1) (Bits.toWord bits) = Int64.ofInt bits.toInt := by
  have hword : (Bits.toWord bits).toNat = bits.toNat := Bits.toNat_toWord (by omega)
  have hlt := Bits.toNat_lt bits
  rw [hl] at hlt
  have hwidth {n : Nat} (hn : n < 64) : n.toUInt64.toNat % 64 = n := by
    rw [Bits.toNat_toUInt64 (by omega), Nat.mod_eq_of_lt hn]
  -- the mask leaves the sign bit
  have hsign : Bits.toWord bits &&& 1 <<< width.toUInt64 ≠ 0 ↔ bits.head? = some true := by
    have hpow : 2 ^ width < 2 ^ 64 := Nat.pow_lt_pow_right (by decide) h
    rw [Bits.head?_eq_testBit hl, Ne, ← UInt64.toNat_inj, UInt64.toNat_and, hword,
      UInt64.toNat_shiftLeft, hwidth h, UInt64.toNat_one, Nat.one_shiftLeft, Nat.mod_eq_of_lt hpow,
      Nat.and_comm, Nat.two_pow_and]
    cases bits.toNat.testBit width <;> simp
  unfold signExtend
  rw [Nat.add_sub_cancel, Bits.toInt, hl, Bits.bound_eq]
  by_cases hneg : bits.head? = some true
  · rw [if_pos hneg]
    rcases Nat.lt_or_ge (width + 1) 64 with hlt64 | hge
    · rw [if_pos ⟨hlt64, hsign.mpr hneg⟩]
      refine toInt64_eq_ofInt ?_
      -- ones go in front of the number
      have hfront : 2 ^ (width + 1) * (2 ^ (64 - (width + 1)) - 1) = 2 ^ 64 - 2 ^ (width + 1) := by
        rw [Nat.mul_sub_one, ← Nat.pow_add, Nat.add_sub_cancel' hlt64.le]
      have hle : 2 ^ (width + 1) ≤ 2 ^ 64 := Nat.pow_le_pow_right (by decide) h
      rw [UInt64.toNat_or, hword, toNat_ones_shiftLeft hlt64, ← hfront, Nat.or_comm,
        ← Nat.two_pow_add_eq_or_of_lt hlt, hfront]
      omega
    · rw [if_neg (not_and_of_not_left _ (Nat.not_lt.mpr hge))]
      refine toInt64_eq_ofInt ?_
      obtain rfl : width = 63 := by omega
      rw [hword]
      omega
  · rw [if_neg hneg, if_neg (not_and_of_not_right _ fun h => hneg (hsign.mp h))]
    refine toInt64_eq_ofInt ?_
    have hpow : 2 ^ (width + 1) ≤ 2 ^ 64 := Nat.pow_le_pow_right (by decide) h
    rw [hword]
    omega

end Slice

end BagOfCells
