import BagOfCells.Proofs.Bag.Exact

/-!
# Reading a written bag

A written bag is printed from its header, its index, the records of its cells and its checksum. What
was written is always within the limits of the format; only the limits of the configuration on the
counts have to be asked for, and that the roots do not outnumber the cells. So it reads back.

## Main definitions

* `Bag.Written.contents`: what the header of a written bag says
* `Bag.Written.recordContents`: what the record of a cell says
* `Bag.Written.source`: what the whole bag says

## Main results

* `Bag.fails_header`: the header is refused if the roots outnumber the cells
* `Bag.Written.bytes_source`, `Bag.Written.legal_source`: what a written bag says
* `Bag.readBag_written`: the whole bag
-/

namespace BagOfCells.Bag

open Cell Outcome

/-! ## The header -/

/-- What the magic number and the flags of a written bag say. -/
def Written.form (roots : List Cell) (flags : Flags) : Preamble :=
  ⟨false, flags.hasIndex, flags.hasCrc, false, Written.refSize roots⟩

/-- What the header of a written bag says. -/
def Written.contents (roots : List Cell) (flags : Flags) : Header :=
  { Written.form roots flags with
    offsetSize := Written.offsetSize roots
    cells := (order roots).length
    total := Written.total roots
    roots := roots.map (place (order roots)) }

/-- The flags keep the size of cell numbers in their low bits. -/
theorem preamble_magic (flags : Flags) {refSize : Nat} (h₁ : 1 ≤ refSize) (h₄ : refSize ≤ 4) :
    preamble magic (flags.byte refSize).toNat =
      .ok ⟨false, flags.hasIndex, flags.hasCrc, false, refSize⟩ := by
  obtain ⟨hasIndex, hasCrc⟩ := flags
  have : refSize = 1 ∨ refSize = 2 ∨ refSize = 3 ∨ refSize = 4 := by omega
  rcases this with rfl | rfl | rfl | rfl <;> cases hasIndex <;> cases hasCrc <;> rfl

theorem reads_readPreamble {roots : List Cell} (flags : Flags)
    (hn : (order roots).length < 256 ^ 4) :
    Reads readPreamble (Written.preamble roots flags) (Written.form roots flags) := by
  have h₁ : 1 ≤ Written.refSize roots := bytesNeeded_pos _
  have h₄ := Written.refSize_le hn
  refine (reads_nat (n := magic) (by decide)).bind ((reads_byte _).bind_pure ?_)
  refine (reads_ofExcept (preamble_magic flags h₁ h₄)).bind_nil ?_
  refine (reads_ensure (by simp) _).bind_nil ((reads_ensure ?_ _).bind_nil (Reads.pure _))
  simpa using ⟨h₁, h₄⟩

theorem fails_checkCounts {config : Config} {cells roots : Nat} (hc : cells ≤ config.maxCells)
    (hr : roots ≤ config.maxRoots) (h₀ : cells ≠ 0) (hlt : cells < roots)
    (hw : roots < Bits.bound 64) :
    Fails (checkCounts config false cells roots 0) [] (.bag (.countsExceed roots 0 cells)) := by
  refine (reads_ensure (by simpa using h₀) _).fails_nil ?_
  refine (reads_ensure (by simpa using hc) _).fails_nil ?_
  refine (reads_ensure (decide_eq_true (Nat.ne_zero_of_lt hlt)) _).fails_nil ?_
  refine (reads_ensure (by simpa using hr) _).fails_nil ?_
  refine (reads_ensure (by simp) _).fails_nil ?_
  refine (reads_ofExcept (Checked.word_eq_ok hw)).fails_nil ?_
  exact (fails_ensure (by simpa using hlt) _).bind

/-- The sizes of a written bag keep the limits of the format. -/
structure Written.Fits (roots : List Cell) : Prop where
  inj : Set.InjOn Cell.hash (reachable roots)
  sound : ∀ cell ∈ order roots, cell.Sound
  cells_lt : (order roots).length < 256 ^ 4

section

variable {roots : List Cell} (fits : Written.Fits roots)

include fits

theorem Written.Fits.total_lt : Written.total roots < 256 ^ 8 :=
  lt_of_le_of_lt (Written.total_le fits.cells_lt fits.sound) (by norm_num)

theorem Written.Fits.offsetSize_le : Written.offsetSize roots ≤ 8 :=
  bytesNeeded_le (by omega) fits.total_lt

theorem Written.Fits.toNat_offsetSize :
    (UInt8.ofNat (Written.offsetSize roots)).toNat = Written.offsetSize roots := by
  have := fits.offsetSize_le
  exact Nat.mod_eq_of_lt (by omega)

omit fits in
theorem offsetSize_bounds (h₈ : Written.offsetSize roots ≤ 8) :
    (1 ≤ Written.offsetSize roots && Written.offsetSize roots ≤ 8) = true := by
  have h₁ : 1 ≤ Written.offsetSize roots := bytesNeeded_pos _
  simpa using ⟨h₁, h₈⟩

variable (flags : Flags)

/-- **The header** of a written bag is refused if the roots outnumber the cells. -/
theorem fails_header {config : Config} (hlt : (order roots).length < roots.length)
    (hn : (order roots).length ≠ 0) (hw : roots.length < 256 ^ Written.refSize roots)
    (hc : (order roots).length ≤ config.maxCells) (hr : roots.length ≤ config.maxRoots) :
    Fails (readHeader config)
      (Written.preamble roots flags ++ ([UInt8.ofNat (Written.offsetSize roots)] ++
        (Bytes.ofNat (Written.refSize roots) (order roots).length ++
          (Bytes.ofNat (Written.refSize roots) roots.length ++
            (Bytes.ofNat (Written.refSize roots) 0 ++ [])))))
      (.bag (.countsExceed roots.length 0 (order roots).length)) := by
  have hword : roots.length < Bits.bound 64 := by
    -- the count of the roots has a field of at most four bytes
    have : 256 ^ Written.refSize roots ≤ 256 ^ 4 :=
      Nat.pow_le_pow_right (by omega) (Written.refSize_le fits.cells_lt)
    rw [Bits.bound_eq]
    omega
  refine (reads_readPreamble flags fits.cells_lt).fails ((reads_byte _).fails ?_)
  rw [fits.toNat_offsetSize]
  refine (reads_ensure (offsetSize_bounds fits.offsetSize_le) _).fails_nil ?_
  refine (reads_nat (lt_pow_bytesNeeded _)).fails ?_
  refine (reads_nat hw).fails ?_
  refine (reads_nat (Nat.pow_pos (by omega))).fails ?_
  exact (fails_checkCounts hc hr hn hlt hword).bind

end

/-! ## Records -/

/-- What the record of a cell says. -/
def Written.recordContents (roots : List Cell) (cell : Cell) : Record :=
  ⟨cell.kind, cell.mask, cell.tagged, cell.bits.length, cell.refs.map (place (order roots))⟩

theorem length_tagged (cell : Cell) : cell.tagged.length = (cell.bits.length + 7) / 8 :=
  Bits.length_pack_complete _

/-- The record of a cell is printed from what it says. -/
theorem Written.bytes_recordContents (roots : List Cell) (cell : Cell) :
    (recordContents roots cell).bytes (refSize roots) = record roots cell := by
  have hsize : (recordContents roots cell).sizeDescriptor = bitsDescriptor cell.bits.length := by
    unfold Record.sizeDescriptor recordContents bitsDescriptor
    dsimp only
    rw [length_tagged]
    split <;> omega
  rw [Record.bytes, hsize, record, descriptors, Bytes.ofNat_one, Bytes.ofNat_one,
    bitsDescriptorByte]
  simp only [recordContents, isExotic, List.length_map, List.map_map, List.append_assoc]
  rfl

/-- **The record** of a cell keeps the format. -/
theorem Written.legal_recordContents {roots : List Cell}
    (inj : Set.InjOn Cell.hash (reachable roots)) {own : Nat} {cell : Cell}
    (hown : (order roots)[own]? = some cell) (sound : cell.Sound) :
    (recordContents roots cell).Legal (order roots).length own where
  bits_le := sound.bits_le
  closed := by
    change cell.bits.length = 8 * cell.tagged.length ∨ Bits.Tagged cell.tagged cell.bits.length
    by_cases h : cell.bits.length % 8 = 0
    · rw [length_tagged]
      omega
    · exact .inr (Bits.tagged_pack_complete h)
  begins := by
    intro byte hbyte
    obtain ⟨h₈, hhead⟩ := sound.begins byte hbyte
    exact ⟨h₈, (Bits.head?_pack_complete h₈).trans hhead⟩
  refs_le := by
    rw [recordContents, List.length_map]
    exact sound.refs_le
  refs := by
    rintro _ htarget
    obtain ⟨ref, href, rfl⟩ := List.mem_map.mp htarget
    have hcell : cell ∈ reachable roots := (mem_order_iff inj).mp (List.mem_of_getElem? hown)
    exact ⟨lt_place_of_getElem? inj hown href, place_lt inj (reachable_ref hcell href)⟩

/-! ## Sizes -/

namespace Written

variable (roots : List Cell) (flags : Flags)

theorem length_checksum : (checksum roots flags).length = if flags.hasCrc then 4 else 0 := by
  unfold checksum
  split <;> simp

theorem length_index :
    (index roots flags).length =
      if flags.hasIndex then (order roots).length * offsetSize roots else 0 := by
  unfold index
  split
  · rw [Bytes.length_flatten_ofNat, length_ends, records, List.length_map]
  · rfl

theorem length_header :
    (header roots flags).length =
      6 + 3 * refSize roots + offsetSize roots + roots.length * refSize roots := by
  simp only [header, preamble, List.length_append, Bytes.length_ofNat, List.length_cons,
    List.length_nil, length_flatten_numbers]
  omega

end Written

/-! ## The whole bag -/

/-- What a written bag says. -/
def Written.source (roots : List Cell) (flags : Flags) : Source where
  header := Written.contents roots flags
  entries := if flags.hasIndex then ends 0 (Written.records roots) else []
  records := (order roots).map (Written.recordContents roots)
  trailer := Written.checksum roots flags

theorem Written.printed_source (roots : List Cell) (flags : Flags) :
    (source roots flags).printed = records roots := by
  change ((order roots).map (recordContents roots)).map (Record.bytes (refSize roots)) = _
  rw [List.map_map, records]
  exact List.map_congr_left fun cell _ => bytes_recordContents roots cell

section

variable {roots : List Cell} (fits : Written.Fits roots) (flags : Flags)

include fits

theorem Written.bytes_contents : (contents roots flags).bytes = header roots flags := by
  have h₁ : 1 ≤ refSize roots := bytesNeeded_pos _
  have h₄ := refSize_le fits.cells_lt
  have hform : (form roots flags).bytes = preamble roots flags := by
    unfold form preamble
    generalize refSize roots = size at h₁ h₄
    obtain ⟨hasIndex, hasCrc⟩ := flags
    interval_cases size <;> cases hasIndex <;> cases hasCrc <;> rfl
  unfold Header.bytes
  change (form roots flags).bytes ++ _ ++ _ ++ _ ++ _ ++ _ ++ _ = _
  rw [hform, header, Bytes.ofNat_one]
  simp only [contents, form, List.length_map, List.map_map, List.append_assoc, Bool.false_eq_true,
    if_false]
  rfl

theorem Written.body_source : (source roots flags).body = body roots flags := by
  rw [Source.body, printed_source, body, index]
  change (contents roots flags).bytes ++ _ ++ _ = _
  rw [bytes_contents fits, List.append_assoc, source]
  dsimp only
  split <;> rfl

theorem Written.bytes_source : (source roots flags).bytes = bag roots flags := by
  rw [Source.bytes, body_source fits]
  rfl

/-- The header of a written bag is legal, if there are as many cells as roots. -/
theorem Written.legal_contents {config : Config} (hne : roots ≠ [])
    (hle : roots.length ≤ (order roots).length) (hc : (order roots).length ≤ config.maxCells)
    (hr : roots.length ≤ config.maxRoots) : (contents roots flags).Legal config where
  form := ⟨⟨bytesNeeded_pos _, refSize_le fits.cells_lt⟩, nofun, nofun⟩
  offsetSize := ⟨bytesNeeded_pos _, fits.offsetSize_le⟩
  cells_pos := (List.length_pos_iff.mpr hne).trans_le hle
  cells_lt := lt_pow_bytesNeeded _
  cells_le := hc
  roots_pos := by
    rw [contents, List.length_map]
    exact List.length_pos_iff.mpr hne
  roots_le := by rwa [contents, List.length_map]
  roots_le_cells := by rwa [contents, List.length_map]
  roots_lt := by
    intro n hn
    obtain ⟨root, hroot, rfl⟩ := List.mem_map.mp hn
    exact place_lt fits.inj (reachable_self hroot)
  root := nofun
  total_lt := lt_pow_bytesNeeded _

/-- **A written bag** is legal, if there are as many cells as roots. -/
theorem Written.legal_source {config : Config} (hne : roots ≠ [])
    (hle : roots.length ≤ (order roots).length) (hc : (order roots).length ≤ config.maxCells)
    (hr : roots.length ≤ config.maxRoots) : (source roots flags).Legal config where
  header := legal_contents fits flags hne hle hc hr
  offsets := by
    rw [printed_source]
    change (if flags.hasIndex then ends 0 (records roots) else []).map id =
      if flags.hasIndex then ends 0 (records roots) else []
    rw [List.map_id]
  entries_lt := by
    intro entry hentry
    change entry < 256 ^ offsetSize roots
    change entry ∈ (if flags.hasIndex then ends 0 (records roots) else []) at hentry
    split at hentry
    · exact (le_of_mem_ends (Nat.zero_add _) hentry).trans_lt (lt_pow_bytesNeeded _)
    · cases hentry
  cells := List.length_map _
  records := by
    intro own record hown
    change ((order roots).map (recordContents roots))[own]? = some record at hown
    rw [List.getElem?_map, Option.map_eq_some_iff] at hown
    obtain ⟨cell, hcell, rfl⟩ := hown
    exact legal_recordContents fits.inj hcell (fits.sound cell (List.mem_of_getElem? hcell))
  total := by
    rw [printed_source]
    rfl
  trailer := length_checksum roots flags
  checksum := by
    intro hcrc _
    rw [body_source fits]
    exact if_pos hcrc

/-- **A written bag** reads back, if there are as many cells as roots. -/
theorem readBag_written {config : Config} (hne : roots ≠ [])
    (hle : roots.length ≤ (order roots).length) (hc : (order roots).length ≤ config.maxCells)
    (hr : roots.length ≤ config.maxRoots) :
    readBag config (Written.bag roots flags) ⟨Written.bag roots flags, 0⟩ =
      .ok (Written.contents roots flags, (order roots).map (Written.recordContents roots))
        ⟨[], (Written.bag roots flags).length⟩ := by
  rw [← Written.bytes_source fits]
  exact readBag_of_legal (Written.legal_source fits flags hne hle hc hr)

end

end BagOfCells.Bag
