import BagOfCells.Builder.Packed
import BagOfCells.Proofs.Bits
import BagOfCells.Proofs.Number
import BagOfCells.Proofs.Outcome
import BagOfCells.Proofs.Wire.Exact

/-!
# Bits that are packed as they come

Bits are packed into whole bytes, with zeros behind the last one. So where they end within a byte,
the first part of the next byte falls on zeros, and the byte is spelled by the two bytes it is put
into. Behind the bits that were packed come then all bits of the bytes that were stored, and what is
beyond the new length is dropped: the builder holds, packed again, the bits it held and those that
were to be stored, whatever followed them in their last byte.

## Main definitions

* `PackedBuilder.WellFormed`: what the bytes of a builder hold beside its bits

## Main results

* `PackedBuilder.pushShifted_pack`, `PackedBuilder.fill_pack`: bytes behind packed bits
* `PackedBuilder.trim_eq`: what is left of some bytes
* `PackedBuilder.storeBits_pack`: the store of the first bits of some bytes
* `PackedBuilder.wellFormed_pack`: the bytes of a packed builder
-/

namespace BagOfCells

open Outcome

namespace Bits

/-! ## The bits of a byte -/

variable (byte : UInt8) {s : Nat}

/-- The bits of a byte, cut in two. -/
theorem ofNat_byte (h : s ≤ 8) :
    ofNat 8 byte.toNat = ofNat (8 - s) (byte.toNat >>> s) ++ ofNat s byte.toNat := by
  rw [← ofNat_add, Nat.sub_add_cancel h]

theorem toNat_toUInt8 (h : s < 8) : s.toUInt8.toNat % 8 = s := by
  rw [Nat.toUInt8, UInt8.toNat_ofNat']
  omega

/-- What moves into the next byte: the first bits, behind zeros. -/
theorem ofNat_byte_shiftRight (h : s < 8) :
    ofNat 8 (byte >>> s.toUInt8).toNat =
      List.replicate s false ++ (ofNat 8 byte.toNat).take (8 - s) := by
  have hsplit := ofNat_shiftRight (k := 8 - s) (m := s) (n := byte.toNat)
    (by rw [Nat.sub_add_cancel h.le]; exact byte.toNat_lt)
  rw [Nat.sub_add_cancel h.le] at hsplit
  rw [UInt8.toNat_shiftRight, toNat_toUInt8 h, hsplit, ofNat_byte byte h.le,
    List.take_left' (length_ofNat ..)]

/-- What is left for the byte after it: the last bits, in front of zeros. -/
theorem ofNat_byte_shiftLeft (h : s < 8) :
    ofNat 8 (byte <<< s.toUInt8).toNat =
      (ofNat 8 byte.toNat).drop s ++ List.replicate s false := by
  have hsplit := ofNat_shiftLeft (8 - s) s byte.toNat
  have hbyte := ofNat_byte byte (Nat.sub_le 8 s)
  rw [Nat.sub_add_cancel h.le] at hsplit
  rw [Nat.sub_sub_self h.le] at hbyte
  rw [hbyte, List.drop_left' (length_ofNat ..), ← hsplit, UInt8.toNat_shiftLeft, toNat_toUInt8 h,
    ofNat_mod]

/-- What a mask leaves: the first bits, in front of zeros. -/
theorem ofNat_byte_and (h : s < 8) :
    ofNat 8 (byte &&& 0xff <<< s.toUInt8).toNat =
      (ofNat 8 byte.toNat).take (8 - s) ++ List.replicate s false := by
  rw [ofNat_byte byte h.le, List.take_left' (length_ofNat ..), ← ofNat_shiftLeft,
    Nat.sub_add_cancel h.le]
  refine ofNat_congr fun i hi => ?_
  have hones : (0xff : UInt8).toNat = 2 ^ 8 - 1 := rfl
  rw [UInt8.toNat_and, UInt8.toNat_shiftLeft, toNat_toUInt8 h, hones, Nat.testBit_and,
    Nat.testBit_mod_two_pow, Nat.testBit_shiftLeft, Nat.testBit_two_pow_sub_one,
    Nat.testBit_shiftLeft, Nat.testBit_shiftRight]
  -- the mask has its ones from the shift on
  by_cases hs : s ≤ i
  · simp [hs, hi, show i - s < 8 by omega]
  · simp [hs]

/-! ## Packed bits -/

theorem ofBytes_singleton (byte : UInt8) : ofBytes [byte] = ofNat 8 byte.toNat :=
  List.append_nil _

theorem ofBytes_take (bytes : Bytes) (n : Nat) :
    ofBytes (bytes.take n) = (ofBytes bytes).take (8 * n) := by
  induction bytes generalizing n with
  | nil => simp [ofBytes]
  | cons byte bytes ih =>
    cases n with
    | zero => rfl
    | succ n =>
      have hfirst : (ofNat 8 byte.toNat).take (8 * n + 8) = ofNat 8 byte.toNat :=
        List.take_of_length_le (by rw [length_ofNat]; omega)
      rw [List.take_succ_cons, ofBytes_cons, ofBytes_cons, ih, List.take_append, Nat.mul_succ,
        hfirst, length_ofNat, Nat.add_sub_cancel]

theorem length_take_ofBytes {bytes : Bytes} {count : Nat} (h : count ≤ 8 * bytes.length) :
    ((ofBytes bytes).take count).length = count :=
  List.length_take_of_le (by rwa [length_ofBytes])

theorem take_ofBytes_length (bytes : Bytes) :
    (ofBytes bytes).take (8 * bytes.length) = ofBytes bytes := by
  rw [← length_ofBytes, List.take_length]

theorem ofBytes_inj {a b : Bytes} (h : ofBytes a = ofBytes b) : a = b := by
  rw [← pack_ofBytes a, ← pack_ofBytes b, h]

theorem ofBytes_replicate_zero (n : Nat) :
    ofBytes (List.replicate n 0) = List.replicate (8 * n) false := by
  induction n with
  | zero => rfl
  | succ n ih =>
    rw [List.replicate_succ, ofBytes_cons, ih, Nat.mul_succ, Nat.add_comm, List.replicate_add]
    rfl

/-- A number in a field of whole bytes. -/
theorem ofBytes_ofNat (size n : Nat) : ofBytes (Bytes.ofNat size n) = ofNat (8 * size) n := by
  induction size with
  | zero => rfl
  | succ size ih =>
    rw [Bytes.ofNat, ofBytes_cons, ih, UInt8.toNat_ofNat', ofNat_mod, ← ofNat_add, Nat.mul_succ,
      Nat.add_comm]

/-- Bits are packed into the bytes that spell them and then nothing but the zeros of a tail. -/
theorem pack_eq {bits : Bits} {bytes : Bytes} {n : Nat} (hn : n < 8)
    (h : ofBytes bytes = bits ++ List.replicate n false) : pack bits = bytes := by
  have hlen := congrArg List.length h
  rw [length_ofBytes, List.length_append, List.length_replicate] at hlen
  refine ofBytes_inj ?_
  rw [ofBytes_pack, h]
  congr 2
  omega

/-- The last byte that some bits begin, when they end within it. -/
theorem exists_pack_eq_append {bits : Bits} (h : bits.length % 8 ≠ 0) :
    ∃ front last tail, pack bits = front ++ [last] ∧ bits = ofBytes front ++ tail ∧
      tail.length = bits.length % 8 ∧
      ofNat 8 last.toNat = tail ++ List.replicate (8 - bits.length % 8) false := by
  have hlen := length_pack bits
  rcases List.eq_nil_or_concat (pack bits) with hnil | ⟨front, last, hlast⟩
  · rw [hnil, List.length_nil] at hlen
    omega
  rw [List.concat_eq_append] at hlast
  rw [hlast, List.length_append, List.length_singleton] at hlen
  have hspell := ofBytes_pack bits
  have hpad : (8 - bits.length % 8) % 8 = 8 - bits.length % 8 := by omega
  rw [hlast, ofBytes_append, hpad] at hspell
  -- the bytes in front are full, so the bits begin with what they spell
  have hfront : (ofBytes front).length ≤ bits.length := by
    rw [length_ofBytes]
    omega
  obtain ⟨tail, rfl⟩ : ofBytes front <+: bits :=
    List.prefix_of_prefix_length_le ⟨_, hspell⟩ (List.prefix_append ..) hfront
  rw [List.append_assoc] at hspell
  have hlast' := List.append_cancel_left hspell
  rw [ofBytes_singleton] at hlast'
  refine ⟨front, last, tail, hlast, rfl, ?_, hlast'⟩
  have htail := congrArg List.length hlast'
  rw [length_ofNat, List.length_append, List.length_replicate] at htail
  omega

theorem zipWith_or_replicate_left (bits : Bits) {n : Nat} (h : bits.length = n) :
    List.zipWith (· || ·) (List.replicate n false) bits = bits := by
  induction bits generalizing n with
  | nil => rw [← h]; rfl
  | cons bit bits ih =>
    rw [← h, List.length_cons, List.replicate_succ, List.zipWith_cons_cons, ih rfl, Bool.false_or]

theorem zipWith_or_replicate_right (bits : Bits) {n : Nat} (h : bits.length = n) :
    List.zipWith (· || ·) bits (List.replicate n false) = bits := by
  rw [List.zipWith_comm_of_comm fun x y => Bool.or_comm x y, zipWith_or_replicate_left bits h]

/-- The first part of a byte falls on the zeros behind some bits. -/
theorem ofNat_byte_or {last : UInt8} {tail : Bits} (hl : tail.length < 8)
    (h : ofNat 8 last.toNat = tail ++ List.replicate (8 - tail.length) false) :
    ofNat 8 (last ||| byte >>> tail.length.toUInt8).toNat =
      tail ++ (ofNat 8 byte.toNat).take (8 - tail.length) := by
  have htake : ((ofNat 8 byte.toNat).take (8 - tail.length)).length = 8 - tail.length :=
    List.length_take_of_le (by rw [length_ofNat]; exact Nat.sub_le ..)
  rw [UInt8.toNat_or, ofNat_or, h, ofNat_byte_shiftRight byte hl,
    List.zipWith_append (by rw [List.length_replicate]), zipWith_or_replicate_right tail rfl,
    zipWith_or_replicate_left _ htake]

end Bits

namespace PackedBuilder

/-! ## Bytes behind packed bits -/

theorem changeLast_append (change : UInt8 → UInt8) (front : Bytes) (last : UInt8) :
    changeLast change (front ++ [last]) = .ok (front ++ [change last]) := by
  have hlen : (front ++ [last]).length - 1 = front.length := by
    rw [List.length_append, List.length_singleton, Nat.add_sub_cancel]
  have hitem : Checked.item (front ++ [last]) front.length = .ok last :=
    Checked.item_eq_ok_iff.mpr List.getElem?_concat_length
  unfold changeLast
  rw [Checked.minus_eq_ok (by simp), hlen]
  change (do let byte ← Checked.item (front ++ [last]) front.length; _) = _
  rw [hitem]
  change Except.ok ((front ++ [last]).set front.length (change last)) = _
  rw [List.set_append_right _ _ le_rfl, Nat.sub_self, List.set_cons_zero]

/-- **A byte goes in two parts** behind bits that end within a byte. -/
theorem pushShifted_pack {bits : Bits} (h : bits.length % 8 ≠ 0) (byte : UInt8) :
    pushShifted (bits.length % 8) (Bits.pack bits) byte =
      .ok (Bits.pack (bits ++ Bits.ofNat 8 byte.toNat)) := by
  obtain ⟨front, last, tail, hpack, hbits, htail, hlast⟩ := Bits.exists_pack_eq_append h
  have hs : bits.length % 8 < 8 := Nat.mod_lt _ (by decide)
  generalize bits.length % 8 = s at h htail hlast hs ⊢
  subst htail
  have hfirst := Bits.ofNat_byte_or byte hs hlast
  have hsecond := Bits.ofNat_byte_shiftLeft byte (s := 8 - tail.length) (by omega)
  have hparts := List.take_append_drop (8 - tail.length) (Bits.ofNat 8 byte.toNat)
  have hchange := changeLast_append (· ||| byte >>> tail.length.toUInt8) front last
  rw [hpack]
  unfold pushShifted
  rw [hchange]
  refine congrArg Except.ok (Bits.pack_eq (n := 8 - tail.length) (by omega) ?_).symm
  rw [Bits.ofBytes_append, Bits.ofBytes_append, Bits.ofBytes_singleton, Bits.ofBytes_singleton,
    hfirst, hsecond, hbits]
  conv_rhs => rw [← hparts]
  simp only [List.append_assoc]

/-- **Bytes go behind the bits** that are packed already, wherever these end. -/
theorem fill_pack (bits : Bits) (bytes : Bytes) :
    fill (bits.length % 8) (Bits.pack bits) bytes =
      .ok (Bits.pack (bits ++ Bits.ofBytes bytes)) := by
  unfold fill
  split
  · next h =>
    refine congrArg Except.ok (Bits.pack_eq (n := 0) (by decide) ?_).symm
    rw [Bits.ofBytes_append, Bits.ofBytes_pack, h]
    simp
  · next h =>
    induction bytes generalizing bits with
    | nil => rw [Bits.ofBytes, List.flatMap_nil, List.append_nil]; rfl
    | cons byte bytes ih =>
      have hmod : (bits ++ Bits.ofNat 8 byte.toNat).length % 8 = bits.length % 8 := by
        rw [List.length_append, Bits.length_ofNat, Nat.add_mod_right]
      have hrest := ih (bits ++ Bits.ofNat 8 byte.toNat) (hmod ▸ h)
      rw [hmod] at hrest
      rw [List.foldlM_cons, pushShifted_pack h]
      change bytes.foldlM _ _ = _
      rw [hrest, Bits.ofBytes_cons, List.append_assoc]

/-- **What is beyond a length** is dropped. -/
theorem trim_eq {length : Nat} {bytes : Bytes} (h : length ≤ 8 * bytes.length) :
    trim length bytes = .ok (Bits.pack ((Bits.ofBytes bytes).take length)) := by
  have htake : (Bits.ofBytes bytes).take length =
      (Bits.ofBytes (bytes.take ((length + 7) / 8))).take length := by
    rw [Bits.ofBytes_take, List.take_take, Nat.min_eq_left (by omega)]
  have hsize : (bytes.take ((length + 7) / 8)).length = (length + 7) / 8 :=
    List.length_take_of_le (by omega)
  unfold trim
  rw [htake]
  generalize bytes.take ((length + 7) / 8) = kept at hsize ⊢
  split
  · next hm =>
    rw [List.take_of_length_le (by rw [Bits.length_ofBytes]; omega), Bits.pack_ofBytes]
  · next hm =>
    obtain ⟨front, last, rfl⟩ : ∃ front last, kept = front ++ [last] := by
      rcases List.eq_nil_or_concat kept with rfl | ⟨front, last, hlast⟩
      · rw [List.length_nil] at hsize
        omega
      · exact ⟨front, last, by rwa [List.concat_eq_append] at hlast⟩
    rw [List.length_append, List.length_singleton] at hsize
    have hmask := Bits.ofNat_byte_and last (s := 8 - length % 8) (by omega)
    rw [Nat.sub_sub_self (by omega)] at hmask
    have hcut : (Bits.ofBytes front ++ Bits.ofNat 8 last.toNat).take length =
        Bits.ofBytes front ++ (Bits.ofNat 8 last.toNat).take (length % 8) := by
      rw [List.take_append, List.take_of_length_le (by rw [Bits.length_ofBytes]; omega),
        Bits.length_ofBytes]
      congr 2
      omega
    rw [changeLast_append]
    refine congrArg Except.ok (Bits.pack_eq (n := 8 - length % 8) (by omega) ?_).symm
    rw [Bits.ofBytes_append, Bits.ofBytes_append, Bits.ofBytes_singleton, Bits.ofBytes_singleton,
      hmask, hcut, List.append_assoc]

/-! ## The store of bits -/

theorem ensureFits_pack (bits refs : Nat) (b : Builder) :
    ensureFits bits refs b.pack = match b.refusal? bits refs with
      | some e => .error e b.pack
      | none => .ok () b.pack := by
  change (if bits > b.availableBits then throw (.bits bits b.availableBits)
    else if refs > b.availableRefs then throw (.refs refs b.availableRefs)
    else pure () : PackedStore) b.pack = _
  unfold Builder.refusal?
  split
  · rfl
  · split <;> rfl

/-- **The first bits** of some bytes go behind what is stored, where there is room for them. -/
theorem storeBits_pack {b : Builder} {bytes : Bytes} {count : Nat}
    (hroom : b.canFit count 0 = true) (h : count ≤ 8 * bytes.length) :
    storeBits bytes count b.pack =
      .ok () (b.behind ((Bits.ofBytes bytes).take count) []).pack := by
  have hfits : ensureFits count 0 b.pack = .ok () b.pack := by
    rw [ensureFits_pack, Builder.refusal?_eq_none_iff.mpr hroom]
  have htaken := Bits.length_take_ofBytes h
  -- the bytes that the bits begin
  have hbegun : (Bits.ofBytes (bytes.take ((count + 7) / 8))).take count =
      (Bits.ofBytes bytes).take count := by
    rw [Bits.ofBytes_take, List.take_take, Nat.min_eq_left (by omega)]
  have hlen : (b.bits ++ Bits.ofBytes (bytes.take ((count + 7) / 8))).length ≥
      b.bits.length + count := by
    rw [List.length_append, Bits.length_ofBytes, List.length_take]
    omega
  have hfill := fill_pack b.bits (bytes.take ((count + 7) / 8))
  have htrim : trim (b.bits.length + count)
      (Bits.pack (b.bits ++ Bits.ofBytes (bytes.take ((count + 7) / 8)))) =
        .ok (Bits.pack (b.bits ++ (Bits.ofBytes bytes).take count)) := by
    rw [trim_eq (by rw [Bits.length_pack]; omega), Bits.ofBytes_pack,
      List.take_append_of_le_length hlen, List.take_append,
      List.take_of_length_le (Nat.le_add_right ..), Nat.add_sub_cancel_left, hbegun]
  rw [storeBits, run_bind_of_ok hfits, if_neg (by omega)]
  change (ofExcept (fill (b.bits.length % 8) (Bits.pack b.bits) (bytes.take ((count + 7) / 8)))
    >>= _ : PackedStore) b.pack = _
  rw [hfill]
  change (ofExcept (trim (b.bits.length + count) _) >>= _ : PackedStore) b.pack = _
  rw [htrim]
  change EStateM.Result.ok () (⟨_, b.bits.length + count, b.refs⟩ : PackedBuilder) = _
  rw [Builder.behind, Builder.pack, List.length_append, htaken, List.append_nil]

/-! ## Packed builders -/

theorem bits_pack (b : Builder) : b.pack.bits = b.bits :=
  Bits.take_ofBytes_pack b.bits

theorem unpack_pack (b : Builder) : b.pack.unpack = b := by
  rw [unpack, bits_pack]
  rfl

/-- A packed builder is what its bits and references make it: it is filled no further than a cell,
and its bytes are as many as its bits begin, with zeros behind the last bit. -/
structure WellFormed (b : PackedBuilder) : Prop where
  length_le : b.length ≤ Cell.maxBits
  refs_le : b.refs.length ≤ Cell.maxRefs
  data_length : b.data.length = (b.length + 7) / 8
  tail_zero : ∀ bit ∈ (Bits.ofBytes b.data).drop b.length, bit = false

theorem wellFormed_pack {b : Builder} (hb : b.InLimits) : WellFormed b.pack := by
  refine ⟨hb.1, hb.2, Bits.length_pack b.bits, ?_⟩
  change ∀ bit ∈ (Bits.ofBytes (Bits.pack b.bits)).drop b.bits.length, _
  rw [Bits.ofBytes_pack, List.drop_left]
  exact fun bit h => List.eq_of_mem_replicate h

/-- **A packed builder** is its bits and references, packed. -/
theorem WellFormed.eq_pack {b : PackedBuilder} (hb : b.WellFormed) :
    b.unpack.InLimits ∧ b = b.unpack.pack := by
  have hsize := hb.data_length
  have hlen : b.bits.length = b.length := Bits.length_take_ofBytes (by omega)
  have htail : (Bits.ofBytes b.data).drop b.length =
      List.replicate (8 * b.data.length - b.length) false := by
    rw [List.eq_replicate_iff, List.length_drop, Bits.length_ofBytes]
    exact ⟨rfl, hb.tail_zero⟩
  have hdata : Bits.pack b.bits = b.data := by
    refine Bits.pack_eq (n := 8 * b.data.length - b.length) (by omega) ?_
    rw [← htail]
    exact (List.take_append_drop ..).symm
  refine ⟨⟨hlen.trans_le hb.length_le, hb.refs_le⟩, ?_⟩
  rw [Builder.pack, unpack, hdata, hlen]

end PackedBuilder

end BagOfCells
