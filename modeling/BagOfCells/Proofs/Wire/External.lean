import BagOfCells.Proofs.Builder.History
import BagOfCells.Proofs.Slice.Exact

/-!
# External addresses

An external address has an encoding if its length fits nine bits and its bytes hold as many bits:
the form, the length and these bits. Its store looks for room before it looks at either, and takes
nothing back. So the encoding is appended where there is one and room for it, and read back there;
without room the builder is left alone; but an address without an encoding, for which there would be
room, leaves behind what comes in front of the part that is wrong.

## Main definitions

* `ExternalAddress.Encodable`, `ExternalAddress.toBits`: addresses with an encoding, and what it is
* `ExternalAddress.fault`, `ExternalAddress.leftover`: why another one is refused where there is
  room, and what it leaves

## Main results

* `Builder.storeExternalAddress_of_faulty`: the store of an address without an encoding
* `Slice.reads_externalAddress`: the load of one with an encoding
* `StoreCall.history_externalAddress`: the store after any calls, and the load
-/

namespace BagOfCells

open Outcome

namespace ExternalAddress

variable (address : ExternalAddress)

/-- The length fits its field, and the bytes hold as many bits. -/
def Encodable : Prop :=
  address.length ≤ 511 ∧ (address.length + 7) / 8 ≤ address.data.length

/-- The bits that belong to the address. -/
def bits : Bits := (Bits.ofBytes address.data).take address.length

/-- The form, the length and the bits of the address. -/
def toBits : Bits := [false, true] ++ Bits.ofNat 9 address.length ++ address.bits

/-- Why an address without an encoding is refused where there is room for it. -/
def fault : CellError :=
  if 511 < address.length then .valueOutOfRange (.unsigned address.length 9)
  else .valueOutOfRange (.dataTooShort address.data.length address.length)

/-- What is stored of an address before it is refused. -/
def leftover : Bits :=
  if 511 < address.length then [false, true] else [false, true] ++ Bits.ofNat 9 address.length

variable {address}

theorem Encodable.length_bits (h : address.Encodable) : address.bits.length = address.length := by
  obtain ⟨-, hdata⟩ := h
  exact Bits.length_take_ofBytes (by omega)

theorem Encodable.length_toBits (h : address.Encodable) :
    address.toBits.length = 11 + address.length := by
  rw [toBits, List.length_append, List.length_append, Bits.length_ofNat, h.length_bits]
  rfl

end ExternalAddress

/-! ## The store -/

namespace Builder

variable {b : Builder} {address : ExternalAddress}

theorem ensureFits_of_canFit {bits refs : Nat} (h : b.canFit bits refs = true) :
    ensureFits bits refs b = .ok () b := by
  rw [ensureFits, refusal?_eq_none_iff.mpr h]

theorem storeWord_of_large (word : UInt64) {width : Nat} (hw : width ≤ 64)
    (h : ¬ Bits.size word.toNat ≤ width) (b : Builder) :
    storeWord word width b = .error (.valueOutOfRange (.unsigned word.toNat width)) b := by
  rw [storeWord, if_neg (Nat.not_lt.mpr hw), if_pos ((shiftRight_ne_zero_iff hw).mpr h)]
  rfl

theorem storeBits_of_short {data : Bytes} {count : Nat} (h : data.length < (count + 7) / 8)
    (hroom : b.canFit count 0 = true) :
    storeBits data count b = .error (.valueOutOfRange (.dataTooShort data.length count)) b := by
  rw [storeBits, run_bind_of_ok (ensureFits_of_canFit hroom), if_pos h]
  rfl

/-- **Without room** the store of an address leaves the builder alone. -/
theorem storeExternalAddress_of_full (h : b.availableBits < 11 + address.length) :
    storeExternalAddress address b = .error
      (if 11 + address.length < 2 ^ 64 then .bits (11 + address.length) b.availableBits
        else .overflow) b := by
  unfold storeExternalAddress
  rw [show 2 + 9 + address.length = 11 + address.length from rfl, checkedLength, Bits.bound_eq]
  split
  · have hfull : ensureFits (11 + address.length) 0 b =
        .error (.bits (11 + address.length) b.availableBits) b := by
      rw [ensureFits, refusal?, if_pos h]
    rw [pure_bind, run_bind_of_error hfull]
  · rfl

/-- **Where there is room** an address with an encoding is stored. -/
theorem storeExternalAddress_of_encodable (hb : b.InLimits) (henc : address.Encodable)
    (h : 11 + address.length ≤ b.availableBits) :
    storeExternalAddress address b = .ok () (b.behind address.toBits []) := by
  obtain ⟨hlength, hdata⟩ := id henc
  have hroom : b.canFit address.toBits.length 0 = true := by
    rw [canFit_iff, henc.length_toBits]
    unfold availableBits at h
    omega
  exact (encodes_storeExternalAddress address b _ hb).mpr
    ⟨address.toBits, [], if_pos ⟨by omega, by omega⟩, hroom, rfl⟩

/-- **Where there is room** an address without an encoding leaves what is in front of its fault. -/
theorem storeExternalAddress_of_faulty (hb : b.InLimits) (henc : ¬ address.Encodable)
    (h : 11 + address.length ≤ b.availableBits) :
    storeExternalAddress address b = .error address.fault (b.behind address.leftover []) := by
  have hroom (n : Nat) (hn : n ≤ 11 + address.length) : b.canFit n 0 = true := by
    rw [canFit_iff]
    unfold availableBits at h
    omega
  have hsmall : 11 + address.length < 2 ^ 64 := by
    have hle : b.availableBits ≤ Cell.maxBits := Nat.sub_le ..
    unfold Cell.maxBits at hle
    omega
  have hlength : address.length.toUInt64.toNat = address.length := Bits.toNat_toUInt64 (by omega)
  have hform : Puts (storeWord 0b01 2) [false, true] [] := puts_storeWord (by decide)
  unfold storeExternalAddress ExternalAddress.fault ExternalAddress.leftover
  rw [checkedLength, if_pos (by rw [Bits.bound_eq]; omega), pure_bind,
    run_bind_of_ok (ensureFits_of_canFit (hroom _ le_rfl))]
  by_cases hlarge : 511 < address.length
  · -- the length is too large for its field
    have hstored := (hform b _ hb).mpr ⟨hroom 2 (by omega), rfl⟩
    have hword := storeWord_of_large address.length.toUInt64 (by decide : 9 ≤ 64)
      (by rw [hlength, Bits.size_le_iff_lt]; omega) (b.behind [false, true] [])
    rw [if_pos hlarge, if_pos hlarge, run_bind_of_ok hstored, run_bind_of_error hword, hlength]
  · -- the length is stored before the bytes are found to be too few
    have hshort : address.data.length < (address.length + 7) / 8 := by
      by_contra hdata
      exact henc ⟨by omega, by omega⟩
    have hword : Puts (storeWord address.length.toUInt64 9) (Bits.ofNat 9 address.length) [] := by
      have hput : Puts (storeWord address.length.toUInt64 9) _ [] :=
        puts_storeWord (by rw [hlength, Bits.size_le_iff_lt]; omega)
      rwa [hlength] at hput
    have hhead : ([false, true] ++ Bits.ofNat 9 address.length).length = 11 := by
      rw [List.length_append, Bits.length_ofNat]
      rfl
    have hstored := (hform.bind hword b _ hb).mpr ⟨hhead ▸ hroom 11 (by omega), rfl⟩
    have hfit : (b.behind ([false, true] ++ Bits.ofNat 9 address.length) []).canFit
        address.length 0 = true := by
      rw [canFit_iff, behind, List.length_append, hhead]
      unfold availableBits at h
      omega
    rw [if_neg hlarge, if_neg hlarge, ← bind_assoc, run_bind_of_ok hstored]
    exact storeBits_of_short hshort hfit

end Builder

/-! ## The load -/

/-- **The load** of an address with an encoding gives its bits, and zeros up to whole bytes. -/
theorem Slice.reads_externalAddress {address : ExternalAddress} (h : address.Encodable)
    (rest : Bool) :
    Reads loadExternalAddress rest address.toBits []
      ⟨Bits.pack address.bits, address.length⟩ := by
  have hlength : (Bits.toWord (Bits.ofNat 9 address.length)).toNat = address.length := by
    have hle := h.1
    rw [Bits.toNat_toWord (by rw [Bits.length_ofNat]; decide), Bits.toNat_ofNat (by omega)]
  have hdata : Reads (loadBits address.length) rest address.bits [] address.bits :=
    reads_bits h.length_bits
  rw [ExternalAddress.toBits, List.append_assoc]
  refine (peeks_word (by decide) rfl : Peeks _ [false, true] _).bind ?_
  rw [if_neg (by decide)]
  refine (reads_skipBits rfl : Reads _ _ [false, true] _ _).bind ?_
  refine (reads_word (by decide) (Bits.length_ofNat 9 address.length)).bind ?_
  rw [hlength]
  exact hdata.map fun bits : Bits => (⟨Bits.pack bits, address.length⟩ : ExternalAddress)

namespace PackedSlice

/-- Positions within a cell are those of what is left. -/
theorem WellFormed.eq_of_unpack_eq {s t : PackedSlice} (hs : s.WellFormed) (ht : t.WellFormed)
    (h : s.unpack = t.unpack) : s = t := by
  obtain ⟨cell, position, refPosition⟩ := s
  obtain ⟨cell', position', refPosition'⟩ := t
  obtain ⟨rfl, hbits, hrefs⟩ := Slice.mk.inj h
  have hposition := congrArg List.length hbits
  have hrefPosition := congrArg List.length hrefs
  have := hs.bits
  have := hs.refs
  have := ht.bits
  have := ht.refs
  simp only [List.length_drop] at *
  congr 1 <;> omega

/-- **The load** at the position of an encoding stops behind it. -/
theorem run_externalAddress {address : ExternalAddress} (h : address.Encodable) {cell : Cell}
    (made : cell.Made) {front later : Bits} (hcell : cell.bits = front ++ address.toBits ++ later)
    {refs : Nat} (hrefs : refs ≤ cell.refs.length) :
    LoadCall.externalAddress.run ⟨cell, front.length, refs⟩ =
      .ok (.externalAddress ⟨Bits.pack address.bits, address.length⟩)
        ⟨cell, (front ++ address.toBits).length, refs⟩ := by
  have hs : WellFormed ⟨cell, front.length, refs⟩ :=
    ⟨made, by simp only [hcell, List.length_append]; omega, hrefs⟩
  have ht : WellFormed ⟨cell, (front ++ address.toBits).length, refs⟩ :=
    ⟨made, by simp only [hcell, List.length_append]; omega, hrefs⟩
  have hunpack : unpack ⟨cell, front.length, refs⟩ =
      ⟨cell, address.toBits ++ later, [] ++ cell.refs.drop refs⟩ := by
    simp only [unpack, hcell, List.append_assoc, List.drop_left, List.nil_append]
  have hvalid : Slice.Valid ⟨cell, address.toBits ++ later, [] ++ cell.refs.drop refs⟩ :=
    ⟨made.sound, ⟨front, by rw [hcell, List.append_assoc]⟩, List.drop_suffix ..⟩
  have hload := Slice.reads_externalAddress h false cell later (cell.refs.drop refs) hvalid
    fun hrest => absurd hrest Bool.false_ne_true
  rw [← hunpack] at hload
  have hfollows : Follows True loadExternalAddress Slice.loadExternalAddress :=
    follows_loadExternalAddress
  obtain ⟨t, hrun, hahead, hrest⟩ := hfollows.of_ok hs hload
  have hend : t = ⟨cell, (front ++ address.toBits).length, refs⟩ := by
    refine hahead.wellFormed.eq_of_unpack_eq ht (hrest.trans ?_)
    simp only [unpack, hcell, List.drop_left]
  rw [hend] at hrun
  exact run_map_of_ok hrun _

end PackedSlice

/-! ## After any calls -/

/-- **External addresses** after any calls, whether they failed or not. An address is stored exactly
if it has an encoding and there is room for it; then the encoding is put behind what is there, and
read back from any cell that begins with all of it. Otherwise the builder is left as it was if there
is no room; if there is, the form and, if it is the bytes that are too few, the length stay
behind. -/
theorem StoreCall.history_externalAddress (calls : List StoreCall) (address : ExternalAddress) :
    let b := history calls
    match (StoreCall.externalAddress address).run b with
    | .ok _ c => address.Encodable ∧ 11 + address.length ≤ b.availableBits ∧
        c.bits = b.bits ++ address.toBits ∧ c.refs = b.refs ∧
        ∀ (cell : Cell) (refs : Nat), cell.Made → c.bits <+: cell.bits →
          refs ≤ cell.refs.length → LoadCall.externalAddress.run ⟨cell, b.length, refs⟩ =
            .ok (.externalAddress ⟨Bits.pack address.bits, address.length⟩)
              ⟨cell, c.length, refs⟩
    | .error e c => ¬ (address.Encodable ∧ 11 + address.length ≤ b.availableBits) ∧
        (b.availableBits < 11 + address.length → c = b ∧
          e = if 11 + address.length < 2 ^ 64 then .bits (11 + address.length) b.availableBits
            else .overflow) ∧
        (11 + address.length ≤ b.availableBits → c.refs = b.refs ∧
          c.bits = b.bits ++ address.leftover ∧ e = address.fault) := by
  have hb := (runAll_pack calls Builder.inLimits_empty).2.inLimits
  dsimp only
  rw [history_eq]
  generalize storeAll calls .empty = b at hb
  have hroom : b.pack.availableBits = b.availableBits := rfl
  have hperforms := PackedBuilder.performs_storeExternalAddress address
  rw [hroom, run]
  by_cases hfull : b.availableBits < 11 + address.length
  · rw [(hperforms.eq_error_iff hb).mpr ⟨b, Builder.storeExternalAddress_of_full hfull, rfl⟩]
    exact ⟨fun h => absurd h.2 (Nat.not_le.mpr hfull), fun _ => ⟨rfl, rfl⟩,
      fun h => absurd h (Nat.not_le.mpr hfull)⟩
  rw [Nat.not_lt] at hfull
  by_cases henc : address.Encodable
  · have hstore := Builder.storeExternalAddress_of_encodable hb henc hfull
    rw [(hperforms.eq_ok_iff hb).mpr ⟨_, hstore, rfl⟩]
    refine ⟨henc, hfull, ?_, ?_, fun cell refs made hcell hrefs => ?_⟩
    · rw [PackedBuilder.bits_pack, PackedBuilder.bits_pack, Builder.behind]
    · exact List.append_nil b.refs
    · rw [PackedBuilder.bits_pack] at hcell
      obtain ⟨later, hlater⟩ := hcell
      exact PackedSlice.run_externalAddress henc made hlater.symm hrefs
  · have hstore := Builder.storeExternalAddress_of_faulty hb henc hfull
    rw [(hperforms.eq_error_iff hb).mpr ⟨_, hstore, rfl⟩]
    refine ⟨fun h => henc h.1, fun h => absurd hfull (Nat.not_le.mpr h), fun _ => ⟨?_, ?_, rfl⟩⟩
    · exact List.append_nil b.refs
    · rw [PackedBuilder.bits_pack, PackedBuilder.bits_pack, Builder.behind]

-- a length of ten bits leaves the form behind
example : (StoreCall.externalAddress ⟨List.replicate 64 0, 512⟩).run .empty =
    .error (.valueOutOfRange (.unsigned 512 9)) ⟨[0x40], 2, []⟩ := by
  rw [StoreCall.run]
  rfl

end BagOfCells
