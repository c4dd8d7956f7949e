import BagOfCells.Proofs.Bag.ReadBack
import BagOfCells.Proofs.Bag.Safety
import BagOfCells.Proofs.Bag.Fields
import BagOfCells.Proofs.Checksum

/-!
# Damaged bags

A bag with a checksum is sealed. If it is damaged in a few neighbouring bytes it is sealed no more,
and every path on which a decoder comes to the end of a bag that announces a checksum compares it.
So damage can only go unnoticed where it hides the announcement, which is one bit of the flags. When
that bit alone is turned, the header reads as before and so do the sizes of all that follows, and
the four bytes of the checksum are left over.

## Main definitions

* `Bag.Burst`: four neighbouring bytes at most have changed
* `Bag.Flipped`: one bit has changed

## Main results

* `Bag.exists_of_encode`: the pieces of a written bag, whatever the hashes of its cells
* `Bag.sealed_of_readBag`: an accepted bag that announces a checksum is sealed
* `Bag.not_readBag_of_cleared`: the announcement cannot be taken away
* `Bag.decode_damaged`: a damaged bag is refused
-/

namespace BagOfCells.Bag

open Outcome

/-! ## What is written -/

section

variable {roots : List Cell} {flags : Flags} {data : Bytes}

theorem length_of_cellNumber {cells : List Cell} {refSize : Nat} {cell : Cell} {bytes : Bytes}
    (h : cellNumber cells refSize cell = .ok bytes) : bytes.length = refSize := by
  unfold cellNumber at h
  split at h
  · cases h
    exact Bytes.length_ofNat ..
  · cases h

theorem two_le_of_record {cells : List Cell} {refSize : Nat} {cell : Cell} {bytes : Bytes}
    (h : record cells refSize cell = .ok bytes) : 2 ≤ bytes.length := by
  unfold record at h
  rw [bind_eq_ok_iff] at h
  obtain ⟨refs, -, h⟩ := h
  cases h
  simp only [List.length_append, Cell.descriptors, List.length_cons, List.length_nil]
  omega

/-- The fields in front of the index of a bag of some roots, given the size of the records and the
numbers of the roots. -/
def writtenFields (roots : List Cell) (flags : Flags) (total : Nat) (numbers : List Bytes) :
    Fields where
  magic := Bytes.ofNat 4 magic
  flags := flags.byte (bytesNeeded (order roots).length)
  offsetSize := UInt8.ofNat (bytesNeeded total)
  cells := Bytes.ofNat (bytesNeeded (order roots).length) (order roots).length
  roots := Bytes.ofNat (bytesNeeded (order roots).length) roots.length
  absent := Bytes.ofNat (bytesNeeded (order roots).length) 0
  total := Bytes.ofNat (bytesNeeded total) total
  numbers := numbers

/-- **A bag that is written** is its fields, an index, the records and the checksum, whether or not
the hashes tell the cells apart. -/
theorem exists_of_encode (h : encode roots flags = .ok data) :
    ∃ (numbers : List Bytes) (index body : Bytes),
      numbers.flatten.length = roots.length * bytesNeeded (order roots).length ∧
      index.length = (if flags.hasIndex then
        (order roots).length * bytesNeeded body.length else 0) ∧
      2 * (order roots).length ≤ body.length ∧
      data = (writtenFields roots flags body.length numbers).bytes ++ index ++ body ++
        if flags.hasCrc then Bytes.ofNatReversed 4 (Crc32c.checksum
          ((writtenFields roots flags body.length numbers).bytes ++ index ++ body)).toNat
        else [] := by
  unfold encode at h
  by_cases hempty : roots.isEmpty = true
  · rw [if_pos hempty] at h
    cases h
  rw [if_neg hempty] at h
  simp only [bind_eq_ok_iff] at h
  obtain ⟨records, hrecords, numbers, hnumbers, h⟩ := h
  have hnumber : ∀ number ∈ numbers, number.length = bytesNeeded (order roots).length := by
    intro number hn
    obtain ⟨root, -, hroot⟩ := exists_of_mem_mapM hnumbers hn
    exact length_of_cellNumber hroot
  have hrecord : ∀ record ∈ records, 2 ≤ record.length := by
    intro record hr
    obtain ⟨cell, -, hcell⟩ := exists_of_mem_mapM hrecords hr
    exact two_le_of_record hcell
  refine ⟨numbers, if flags.hasIndex then ((ends 0 records).map (Bytes.ofNat
    (bytesNeeded records.flatten.length))).flatten else [], records.flatten, ?_, ?_, ?_, ?_⟩
  · rw [(mapM_eq_ok_iff.mp hnumbers).length_eq]
    exact le_antisymm (Written.length_flatten_le fun n hn => (hnumber n hn).le)
      (Written.le_length_flatten fun n hn => (hnumber n hn).ge)
  · rw [(mapM_eq_ok_iff.mp hrecords).length_eq]
    cases flags.hasIndex
    · rfl
    · simp [List.length_flatten, Function.comp_def, length_ends]
  · rw [(mapM_eq_ok_iff.mp hrecords).length_eq, Nat.mul_comm]
    exact Written.le_length_flatten hrecord
  · unfold writtenFields Fields.bytes
    cases hcrc : flags.hasCrc <;> cases hindex : flags.hasIndex <;>
      simp_all [pure, Except.pure]

/-- A bag written with a checksum is sealed. -/
theorem sealed_of_encode {hasIndex : Bool} (h : encode roots ⟨hasIndex, true⟩ = .ok data) :
    Crc32c.Sealed data := by
  obtain ⟨numbers, index, body, -, -, -, rfl⟩ := exists_of_encode h
  exact Crc32c.sealed_append _

end

/-! ## What is accepted -/

section

variable {config : Config} {data : Bytes} {header : Header} {records : List Record} {after : Input}

theorem Fields.getElem?_bytes {fields : Fields} (h : fields.magic.length = 4) (rest : Bytes) :
    (fields.bytes ++ rest)[4]? = some fields.flags := by
  rw [Fields.bytes, List.append_assoc, List.getElem?_append_right h.le, h]
  rfl

/-- The flag of the checksum leaves the older forms no size of cell numbers. -/
theorem hasCrc_of_preamble {magicNumber byte : Nat} {form : Preamble}
    (h : preamble magicNumber byte = .ok form) (hsize : form.refSize ≤ 4)
    (hbit : byte.testBit 6 = true) : form.hasCrc = true := by
  have hlarge : ¬ byte ≤ 4 := by
    intro hle
    rw [Nat.testBit_lt_two_pow (hle.trans_lt (by decide))] at hbit
    cases hbit
  unfold preamble at h
  split at h
  · split at h
    · cases h
    · cases h
      exact hbit
  · split at h
    · cases h
      exact absurd hsize hlarge
    · split at h
      · cases h
        rfl
      · cases h

/-- **An accepted bag** that announces a checksum is sealed. -/
theorem sealed_of_readBag (h : readBag config data ⟨data, 0⟩ = .ok (header, records) after)
    (verify : config.verifyCrc = true) {flags : UInt8} (hflags : data[4]? = some flags)
    (hbit : flags.toNat.testBit 6 = true) : Crc32c.Sealed data := by
  obtain ⟨fields, index, body, trailer, hdata, hfields, -, -, htrailer, hsum⟩ := exists_of_readBag h
  have heq : fields.flags = flags := by
    rw [hdata, List.append_assoc, List.append_assoc, Fields.getElem?_bytes hfields.magic] at hflags
    exact Option.some.inj hflags
  have hcrc := hasCrc_of_preamble hfields.flags hfields.refSize.2 (heq ▸ hbit)
  rw [if_pos hcrc] at htrailer
  exact ⟨_, trailer, hdata, htrailer, hsum hcrc verify⟩

end

/-! ## The announcement taken away -/

/-- The fields behind the flags, with what follows them. -/
def Fields.behind (fields : Fields) (rest : Bytes) : Bytes :=
  fields.cells ++ (fields.roots ++ (fields.absent ++ (fields.total ++
    (fields.numbers.flatten ++ rest))))

theorem Fields.cut {fields : Fields} {front rear rest : Bytes} {byte : UInt8}
    (hm : fields.magic.length = 4) (hf : front.length = 4)
    (h : front ++ byte :: rear = fields.bytes ++ rest) :
    front = fields.magic ∧ byte = fields.flags ∧
      rear = fields.offsetSize :: fields.behind rest := by
  rw [Fields.bytes, List.append_assoc] at h
  obtain ⟨hfront, hrest⟩ := List.append_inj h (by rw [hf, hm])
  simp only [List.cons_append, List.append_assoc, List.cons.injEq] at hrest
  exact ⟨hfront, hrest.1, hrest.2⟩

theorem Fields.length_behind (fields : Fields) (rest : Bytes) :
    (fields.behind rest).length = fields.cells.length + fields.roots.length +
      fields.absent.length + fields.total.length + fields.numbers.flatten.length + rest.length := by
  simp only [Fields.behind, List.length_append]
  omega

/-- Fields of the same sizes are read off the same bytes alike. -/
theorem Fields.of_behind {a b : Fields} {rest rest' : Bytes}
    (h : a.behind rest = b.behind rest') (hc : a.cells.length = b.cells.length)
    (hr : a.roots.length = b.roots.length) (ha : a.absent.length = b.absent.length)
    (ht : a.total.length = b.total.length) :
    a.cells = b.cells ∧ a.roots = b.roots ∧ a.total = b.total := by
  obtain ⟨hcells, h⟩ := List.append_inj h hc
  obtain ⟨hroots, h⟩ := List.append_inj h hr
  obtain ⟨-, h⟩ := List.append_inj h ha
  exact ⟨hcells, hroots, (List.append_inj h ht).1⟩

theorem refSize_of_preamble {byte : Nat} {form : Preamble} (h : preamble magic byte = .ok form) :
    form.refSize = byte % 8 := by
  unfold preamble at h
  rw [if_pos rfl] at h
  split at h
  · cases h
  · cases h
    rfl

/-- Without its flag of the checksum a byte is that of a bag without checksum. -/
theorem byte_xor (hasIndex : Bool) {refSize : Nat} (h : refSize ≤ 8) :
    Flags.byte ⟨hasIndex, true⟩ refSize ^^^ 64 = Flags.byte ⟨hasIndex, false⟩ refSize := by
  interval_cases refSize <;> cases hasIndex <;> rfl

theorem byte_mod (flags : Flags) {refSize : Nat} (h : refSize ≤ 8) :
    (flags.byte refSize).toNat % 8 = refSize % 8 := by
  obtain ⟨hasIndex, hasCrc⟩ := flags
  interval_cases refSize <;> cases hasIndex <;> cases hasCrc <;> rfl

theorem testBit_byte (hasIndex : Bool) (refSize : Nat) :
    (Flags.byte ⟨hasIndex, true⟩ refSize).toNat.testBit 6 = true := by
  rw [Flags.byte, UInt8.toNat_or, Nat.testBit_or, if_pos rfl]
  exact Bool.or_true _

theorem length_flatten_numbers_le {fields : Fields} {header : Header} (h : fields.Says header) :
    fields.numbers.flatten.length ≤ Bytes.toNat fields.roots * header.refSize := by
  have hnumbers := h.numbers
  split at hnumbers
  · rw [hnumbers]
    exact Nat.zero_le _
  · obtain ⟨hl, hall⟩ := hnumbers
    rw [← hl]
    refine Written.length_flatten_le fun number hn => ?_
    obtain ⟨i, hi, rfl⟩ := List.mem_iff_getElem.mp hn
    exact (hall.get hi (hall.length_eq ▸ hi)).2.le

/-- With its flag of the checksum turned a bag is one without checksum, of the same sizes. -/
theorem preamble_of_cleared {fields : Fields} {header : Header} {hasIndex : Bool} {refSize : Nat}
    (hfields : fields.Says header) (hmagic : fields.magic = Bytes.ofNat 4 magic)
    (hflags : fields.flags = Flags.byte ⟨hasIndex, true⟩ refSize ^^^ 64) (h₁ : 1 ≤ refSize)
    (h₈ : refSize ≤ 8) : header.toPreamble = ⟨false, hasIndex, false, false, refSize⟩ := by
  have h := hfields.flags
  rw [hmagic, hflags, Bytes.toNat_ofNat (by decide), byte_xor hasIndex h₈] at h
  have hmod := refSize_of_preamble h
  rw [byte_mod _ h₈] at hmod
  -- a size of eight would leave its flags none, which is too little
  have hbounds := hfields.refSize
  rw [preamble_magic _ h₁ (by omega)] at h
  exact (Except.ok.inj h).symm

/-- Read with the sizes that it was written with, a bag has the counts that it was written with, and
no more is left behind the numbers of its roots than when it was written. -/
theorem counts_of_behind {roots : List Cell} {flags : Flags} {total : Nat} {numbers : List Bytes}
    {fields : Fields} {header : Header} {rest rest' : Bytes} (hfields : fields.Says header)
    (hr : header.refSize = bytesNeeded (order roots).length)
    (ho : header.offsetSize = bytesNeeded total)
    (hnumbers : numbers.flatten.length = roots.length * bytesNeeded (order roots).length)
    (hbehind : (writtenFields roots flags total numbers).behind rest = fields.behind rest') :
    header.cells = (order roots).length ∧ header.total = total ∧ rest.length ≤ rest'.length := by
  have hcellsLength : (writtenFields roots flags total numbers).cells.length =
      fields.cells.length := by
    rw [hfields.cells.2, hr]
    exact Bytes.length_ofNat ..
  have hrootsLength : (writtenFields roots flags total numbers).roots.length =
      fields.roots.length := by
    rw [hfields.roots, hr]
    exact Bytes.length_ofNat ..
  have habsentLength : (writtenFields roots flags total numbers).absent.length =
      fields.absent.length := by
    rw [hfields.absent, hr]
    exact Bytes.length_ofNat ..
  have htotalLength : (writtenFields roots flags total numbers).total.length =
      fields.total.length := by
    rw [hfields.total.2, ho]
    exact Bytes.length_ofNat ..
  obtain ⟨hcells, hroots, htotal⟩ :=
    Fields.of_behind hbehind hcellsLength hrootsLength habsentLength htotalLength
  refine ⟨?_, ?_, ?_⟩
  · rw [hfields.cells.1, ← hcells]
    exact Bytes.toNat_ofNat (lt_pow_bytesNeeded _)
  · rw [hfields.total.1, ← htotal]
    exact Bytes.toNat_ofNat (lt_pow_bytesNeeded _)
  · -- no more bytes are read as numbers of roots than were written
    have hread : fields.numbers.flatten.length ≤ numbers.flatten.length := by
      rw [hnumbers, ← hr]
      refine (length_flatten_numbers_le hfields).trans (Nat.mul_le_mul_right _ ?_)
      rw [← hroots]
      exact (Bytes.toNat_ofNat_mod _ _).trans_le (Nat.mod_le _ _)
    have hlength := congrArg List.length hbehind
    rw [Fields.length_behind, Fields.length_behind, hcellsLength, hrootsLength, habsentLength,
      htotalLength] at hlength
    change _ + numbers.flatten.length + _ = _ at hlength
    omega

/-- **The announcement** of a checksum cannot be taken away: the sizes of all that is read are in
the other fields, and together they leave the checksum over. -/
theorem not_readBag_of_cleared {config : Config} {roots : List Cell} {hasIndex : Bool}
    {front rear : Bytes} {byte : UInt8}
    (encoded : encode roots ⟨hasIndex, true⟩ = .ok (front ++ byte :: rear))
    (memory : (front ++ byte :: rear).length < Bits.bound 64) (hf : front.length = 4)
    {header : Header} {records : List Record} {after : Input} :
    readBag config (front ++ (byte ^^^ 64) :: rear) ⟨front ++ (byte ^^^ 64) :: rear, 0⟩ ≠
      .ok (header, records) after := by
  intro h
  obtain ⟨numbers, index, body, hnumbers, hindex, hbody, hdata⟩ := exists_of_encode encoded
  obtain ⟨fields, index', body', trailer, hread, hfields, hindex', hbody', htrailer, -⟩ :=
    exists_of_readBag h
  rw [if_pos rfl, List.append_assoc, List.append_assoc] at hdata
  rw [List.append_assoc, List.append_assoc] at hread
  have hsize : (order roots).length < 256 ^ 8 ∧ body.length < 256 ^ 8 := by
    have hl : body.length ≤ (front ++ byte :: rear).length := by
      rw [hdata]
      simp only [List.length_append]
      omega
    rw [Bits.bound_eq] at memory
    constructor <;> omega
  have hr₁ : 1 ≤ bytesNeeded (order roots).length := bytesNeeded_pos _
  have hr₈ : bytesNeeded (order roots).length ≤ 8 := bytesNeeded_le (by decide) hsize.1
  have ho₈ : bytesNeeded body.length ≤ 8 := bytesNeeded_le (by decide) hsize.2
  -- the two bags are the same but for the flags
  obtain ⟨hmagic, hbyte, hrear⟩ := Fields.cut (Bytes.length_ofNat ..) hf hdata
  obtain ⟨hmagic', hbyte', hrear'⟩ := Fields.cut hfields.magic hf hread
  rw [hrear, List.cons.injEq] at hrear'
  obtain ⟨hoffset, hbehind⟩ := hrear'
  -- so each field reads as it was written, with the sizes that it was written with
  have hpre := preamble_of_cleared hfields (hmagic'.symm.trans hmagic)
    (hbyte'.symm.trans (congrArg (· ^^^ 64) hbyte)) hr₁ hr₈
  have ho : header.offsetSize = bytesNeeded body.length := by
    rw [hfields.offsetSize, ← hoffset]
    exact UInt8.toNat_ofNat_of_lt' (ho₈.trans_lt (by decide))
  obtain ⟨hcells, htotal, hrest⟩ :=
    counts_of_behind hfields (congrArg Preamble.refSize hpre) ho hnumbers hbehind
  -- and nothing takes up the checksum
  rw [congrArg Preamble.hasCrc hpre, if_neg Bool.false_ne_true] at htrailer
  rw [congrArg Preamble.hasIndex hpre, hcells, ho, ← hindex] at hindex'
  simp only [List.length_append, Bytes.length_ofNatReversed, hindex', hbody', htotal,
    htrailer] at hrest
  omega

/-! ## Damage -/

/-- At most four neighbouring bytes have changed. -/
def Burst (data damaged : Bytes) : Prop :=
  ∃ front bytes changed rear, data = front ++ bytes ++ rear ∧ damaged = front ++ changed ++ rear ∧
    changed.length = bytes.length ∧ bytes.length ≤ 4

/-- One bit has changed. -/
def Flipped (data damaged : Bytes) : Prop :=
  ∃ front byte rear i, i < 8 ∧ data = front ++ byte :: rear ∧
    damaged = front ++ (byte ^^^ UInt8.ofNat (2 ^ i)) :: rear

theorem Flipped.burst {data damaged : Bytes} (h : Flipped data damaged) : Burst data damaged := by
  obtain ⟨front, byte, rear, i, -, rfl, rfl⟩ := h
  exact ⟨front, [byte], [byte ^^^ UInt8.ofNat (2 ^ i)], rear, by simp, by simp, rfl, by simp⟩

theorem Burst.length_eq {data damaged : Bytes} (h : Burst data damaged) :
    damaged.length = data.length := by
  obtain ⟨front, bytes, changed, rear, rfl, rfl, hl, -⟩ := h
  simp [hl]

section

variable {config : Config} {roots : List Cell} {hasIndex : Bool} {data damaged : Bytes}
  {header : Header} {records : List Record} {after : Input}

theorem flags_of_encode (h : encode roots ⟨hasIndex, true⟩ = .ok data) :
    ∃ flags, data[4]? = some flags ∧ flags.toNat.testBit 6 = true := by
  obtain ⟨numbers, index, body, -, -, -, rfl⟩ := exists_of_encode h
  rw [List.append_assoc, List.append_assoc, Fields.getElem?_bytes (Bytes.length_ofNat ..)]
  exact ⟨_, rfl, testBit_byte hasIndex _⟩

/-- Damage that leaves the announcement is noticed. -/
theorem Burst.not_readBag (verify : config.verifyCrc = true)
    (encoded : encode roots ⟨hasIndex, true⟩ = .ok data) (changed : damaged ≠ data)
    (h : Burst data damaged) {flags : UInt8} (hflags : damaged[4]? = some flags)
    (hbit : flags.toNat.testBit 6 = true) :
    readBag config damaged ⟨damaged, 0⟩ ≠ .ok (header, records) after := by
  intro hread
  have hsealed := sealed_of_readBag hread verify hflags hbit
  have hsealed' := sealed_of_encode encoded
  obtain ⟨front, bytes, bytes', rear, rfl, rfl, hl, h₄⟩ := h
  exact changed (by rw [Crc32c.Sealed.eq_of_burst hsealed hsealed' hl (hl ▸ h₄)])

/-- A bit of a byte other than the one that is turned stays. -/
theorem testBit_flip (byte : UInt8) {i j : Nat} (hi : i < 8) (hne : j ≠ i) :
    (byte ^^^ UInt8.ofNat (2 ^ i)).toNat.testBit j = byte.toNat.testBit j := by
  have hlt : 2 ^ i < 2 ^ 8 := Nat.pow_lt_pow_right (by decide) hi
  rw [UInt8.toNat_xor, UInt8.toNat_ofNat_of_lt' hlt, Nat.testBit_xor,
    Nat.testBit_two_pow_of_ne hne.symm, Bool.xor_false]

/-- **One bit** that has changed is noticed wherever it is. -/
theorem Flipped.not_readBag (verify : config.verifyCrc = true)
    (encoded : encode roots ⟨hasIndex, true⟩ = .ok data) (memory : data.length < Bits.bound 64)
    (changed : damaged ≠ data) (h : Flipped data damaged) :
    readBag config damaged ⟨damaged, 0⟩ ≠ .ok (header, records) after := by
  have hburst := h.burst
  obtain ⟨flags, hflags, hbit⟩ := flags_of_encode encoded
  obtain ⟨front, byte, rear, i, hi, rfl, rfl⟩ := h
  by_cases hf : front.length = 4
  · have hbyte : byte = flags := by
      rw [List.getElem?_append_right hf.le, hf] at hflags
      exact Option.some.inj hflags
    by_cases hi₆ : i = 6
    · subst hi₆
      exact not_readBag_of_cleared encoded memory hf
    · have hdamaged : (front ++ (byte ^^^ UInt8.ofNat (2 ^ i)) :: rear)[4]? =
          some (byte ^^^ UInt8.ofNat (2 ^ i)) := by
        rw [List.getElem?_append_right hf.le, hf]
        rfl
      refine hburst.not_readBag verify encoded changed hdamaged ?_
      rw [testBit_flip byte hi (Ne.symm hi₆), hbyte, hbit]
  · refine hburst.not_readBag verify encoded changed (Eq.trans ?_ hflags) hbit
    rcases Nat.lt_or_gt_of_ne hf with hlt | hgt
    · rw [List.getElem?_append_right hlt.le, List.getElem?_append_right hlt.le]
      obtain ⟨k, hk⟩ : ∃ k, 4 - front.length = k + 1 := ⟨3 - front.length, by omega⟩
      rw [hk, List.getElem?_cons_succ, List.getElem?_cons_succ]
    · rw [List.getElem?_append_left hgt, List.getElem?_append_left hgt]

end

/-- **A damaged bag** is refused. Whatever roots a bag with a checksum was written for, with an
index or without, a decoder that verifies checksums refuses every byte string of the same length
that differs from it, be it in four neighbouring bytes that leave the flags alone or in any one
bit. -/
theorem decode_damaged (config : Config) (roots : List Cell) (hasIndex : Bool)
    (data damaged : Bytes) (verify : config.verifyCrc = true)
    (encoded : encode roots ⟨hasIndex, true⟩ = .ok data) (memory : data.length < Bits.bound 64)
    (changed : damaged ≠ data)
    (damage : (Burst data damaged ∧ damaged[4]? = data[4]?) ∨ Flipped data damaged) :
    ∃ e, decode config damaged = .error e ∧ e.isRefusal = true := by
  have hburst : Burst data damaged := damage.elim And.left Flipped.burst
  have hnot (header : Header) (records : List Record) (after : Input) :
      readBag config damaged ⟨damaged, 0⟩ ≠ .ok (header, records) after := by
    rcases damage with ⟨h, hflags⟩ | h
    · obtain ⟨flags, hdata, hbit⟩ := flags_of_encode encoded
      exact h.not_readBag verify encoded changed (hflags.trans hdata) hbit
    · exact h.not_readBag verify encoded memory changed
  have hguarded : Guarded damaged.length 0 (readBag config damaged) _ :=
    guarded_readBag (hburst.length_eq ▸ memory) config rfl
  have hkept := hguarded ⟨damaged, 0⟩ (Nat.zero_add _) le_rfl
  unfold decode
  cases hread : readBag config damaged ⟨damaged, 0⟩ with
  | error e after =>
    rw [hread] at hkept
    exact ⟨e, rfl, hkept⟩
  | ok result after => exact absurd hread (hnot result.1 result.2 after)

/-- The bag of the empty cell, with a checksum. -/
def sealedBag : Bytes :=
  [0xb5, 0xee, 0x9c, 0x72, 0x41, 1, 1, 1, 0, 2, 0, 0, 0, 0x4c, 0xac, 0xb9, 0xcd]

theorem encode_sealedBag : encode [.empty] ⟨false, true⟩ = .ok sealedBag := by
  have h : (match encode [.empty] ⟨false, true⟩ with
      | .error _ => []
      | .ok data => data) = sealedBag := by decide +kernel
  cases hd : encode [.empty] ⟨false, true⟩ with
  | error e =>
    rw [hd] at h
    cases h
  | ok data =>
    rw [hd] at h
    exact congrArg _ h

/-- Its announcement of the checksum is turned, and it is refused. -/
theorem decode_damaged_sealedBag :
    ∃ e, decode {} (sealedBag.set 4 1) = .error e ∧ e.isRefusal = true := by
  refine decode_damaged {} [.empty] false sealedBag (sealedBag.set 4 1) rfl encode_sealedBag
    (by decide) (by decide) (.inr ?_)
  exact ⟨sealedBag.take 4, 0x41, sealedBag.drop 5, 6, by decide, rfl, rfl⟩

end BagOfCells.Bag
