import BagOfCells.Proofs.Bag.Exact

/-!
# The fields of an accepted bag

An accepted bag is cut into its fields, its index, its records and its checksum without anything
left over. The fields are kept as bytes, so that two bags can be compared field by field.

## Main definitions

* `Bag.Fields`, `Bag.Fields.Says`: the fields in front of the index, and the header they stand for
* `Bag.Header.fields`: the fields a header is printed in

## Main results

* `Bag.exists_of_readBag`: an accepted bag
-/

namespace BagOfCells.Bag

/-- The fields in front of the index. -/
structure Fields where
  magic : Bytes
  flags : UInt8
  offsetSize : UInt8
  cells : Bytes
  roots : Bytes
  absent : Bytes
  total : Bytes
  /-- The numbers of the roots; older forms have none. -/
  numbers : List Bytes

/-- The fields one behind the other. -/
def Fields.bytes (fields : Fields) : Bytes :=
  fields.magic ++ ([fields.flags] ++ ([fields.offsetSize] ++ (fields.cells ++ (fields.roots ++
    (fields.absent ++ (fields.total ++ fields.numbers.flatten))))))

/-- The fields have the sizes and the values that a header says. -/
structure Fields.Says (fields : Fields) (header : Header) : Prop where
  magic : fields.magic.length = 4
  flags : preamble (Bytes.toNat fields.magic) fields.flags.toNat = .ok header.toPreamble
  refSize : 1 ≤ header.refSize ∧ header.refSize ≤ 4
  offsetSize : header.offsetSize = fields.offsetSize.toNat
  cells : header.cells = Bytes.toNat fields.cells ∧ fields.cells.length = header.refSize
  roots : fields.roots.length = header.refSize
  absent : fields.absent.length = header.refSize
  total : header.total = Bytes.toNat fields.total ∧ fields.total.length = header.offsetSize
  numbers : if header.legacy then fields.numbers = [] else
    fields.numbers.length = Bytes.toNat fields.roots ∧
      List.Forall₂ (fun bytes n => n = Bytes.toNat bytes ∧ bytes.length = header.refSize)
        fields.numbers header.roots

/-- The fields that a header is printed in. -/
def Header.fields (header : Header) : Fields where
  magic := Bytes.ofNat 4 header.magicNumber
  flags := UInt8.ofNat header.flags
  offsetSize := UInt8.ofNat header.offsetSize
  cells := Bytes.ofNat header.refSize header.cells
  roots := Bytes.ofNat header.refSize header.roots.length
  absent := Bytes.ofNat header.refSize 0
  total := Bytes.ofNat header.offsetSize header.total
  numbers := if header.legacy then [] else header.roots.map (Bytes.ofNat header.refSize)

theorem Header.bytes_fields (header : Header) : header.fields.bytes = header.bytes := by
  unfold Fields.bytes fields bytes Preamble.bytes
  simp only [Bytes.ofNat_one, List.append_assoc]
  split <;> rfl

/-- A legal header is what its fields say. -/
theorem Header.Legal.says {config : Config} {header : Header} (h : header.Legal config) :
    header.fields.Says header where
  magic := Bytes.length_ofNat ..
  flags := by
    change preamble (Bytes.toNat (Bytes.ofNat 4 header.magicNumber))
      (UInt8.ofNat header.flags).toNat = _
    rw [Bytes.toNat_ofNat header.magicNumber_lt, UInt8.toNat_ofNat_of_lt' h.form.flags_lt]
    exact preamble_of_flags h.form
  refSize := h.form.refSize
  offsetSize := (UInt8.toNat_ofNat_of_lt' (h.offsetSize.2.trans_lt (by decide))).symm
  cells := ⟨(Bytes.toNat_ofNat h.cells_lt).symm, Bytes.length_ofNat ..⟩
  roots := Bytes.length_ofNat ..
  absent := Bytes.length_ofNat ..
  total := ⟨(Bytes.toNat_ofNat h.total_lt).symm, Bytes.length_ofNat ..⟩
  numbers := by
    unfold fields
    split
    · rfl
    · dsimp only
      rw [Bytes.toNat_ofNat (h.roots_le_cells.trans_lt h.cells_lt), List.forall₂_map_left_iff,
        List.forall₂_same]
      refine ⟨List.length_map _, fun root hroot => ⟨?_, Bytes.length_ofNat ..⟩⟩
      exact (Bytes.toNat_ofNat ((h.roots_lt root hroot).trans h.cells_lt)).symm

/-- **An accepted bag** is its header, its index, its records and its checksum, which is that of
everything in front of it. -/
theorem exists_of_readBag {config : Config} {data : Bytes} {header : Header}
    {records : List Record} {after : Input}
    (h : readBag config data ⟨data, 0⟩ = .ok (header, records) after) :
    ∃ (fields : Fields) (index body trailer : Bytes),
      data = fields.bytes ++ index ++ body ++ trailer ∧ fields.Says header ∧
      index.length = (if header.hasIndex then header.cells * header.offsetSize else 0) ∧
      body.length = header.total ∧ trailer.length = (if header.hasCrc then 4 else 0) ∧
      (header.hasCrc = true → config.verifyCrc = true → Bytes.toNatReversed trailer =
        (Crc32c.checksum (fields.bytes ++ index ++ body)).toNat) := by
  obtain ⟨entries, trailer, hlegal, rfl⟩ := legal_of_readBag h
  refine ⟨header.fields, (entries.map (Bytes.ofNat header.offsetSize)).flatten, _, trailer,
    by rw [header.bytes_fields]; rfl, hlegal.header.says, ?_, hlegal.total, hlegal.trailer, ?_⟩
  · have hentries : entries.length = if header.hasIndex then header.cells else 0 := by
      have hl := congrArg List.length hlegal.offsets
      rw [List.length_map] at hl
      refine hl.trans ?_
      split
      · rw [length_ends, Source.printed, List.length_map, hlegal.cells]
      · rfl
    rw [Bytes.length_flatten_ofNat, hentries]
    split
    · rfl
    · exact Nat.zero_mul _
  · intro hcrc hverify
    rw [header.bytes_fields, show trailer = _ from hlegal.checksum hcrc hverify,
      Bytes.toNatReversed_ofNatReversed (UInt32.toNat_lt _)]
    rfl

end BagOfCells.Bag
