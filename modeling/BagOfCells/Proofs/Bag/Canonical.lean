import BagOfCells.Proofs.Bag.Accepted
import BagOfCells.Proofs.Cell.Collision

/-!
# The bytes of a record and those of its cell

A record of an accepted bag begins with two descriptors and the data. Nothing in them is free: the
count of references, the kind and the mask are those of the cell, and where the data are closed by a
tag, the place of the tag tells how many bits stand in front of it. So these bytes are the
descriptors and the tagged data of the cell that is made of the record, with one exception. The
second descriptor is not held against the count of bits that the tag leaves, and a tag may have the
last byte to itself. Data of whole bytes, which have no tag where a cell is written, are accepted
with such a byte behind them too. These are the only two forms there are.

## Main definitions

* `Bag.Record.content`: the descriptors and the data of a record
* `Bag.Record.LoneTag`: the last byte holds the tag and nothing else
* `Bag.overlong cell`: the second form of a cell of whole bytes

## Main results

* `Bits.Tagged.pack_complete`, `Bits.Tagged.pack_append`: the bytes of tagged data
* `Bag.Record.Legal.content_eq`: which of the two forms a record has
* `Bag.decode_records`: the records of an accepted bag
-/

namespace BagOfCells

/-! ## Tagged data -/

namespace Bits

variable {bytes : List UInt8} {count : Nat}

theorem Tagged.length_take (h : Tagged bytes count) :
    ((ofBytes bytes).take count).length = count := by
  have hbounds := h.length_bounds
  rw [List.length_take, length_ofBytes]
  omega

/-- The zeros behind the tag fill its byte. -/
theorem Tagged.ofBytes_eq (h : Tagged bytes count) :
    ofBytes bytes =
      (ofBytes bytes).take count ++ true :: List.replicate (7 - count % 8) false := by
  have hlen := h.length_take
  obtain ⟨zeros, hz, hbytes⟩ := h
  have hsize := congrArg List.length hbytes
  rw [List.length_append, hlen, length_ofBytes, List.length_cons, List.length_replicate] at hsize
  have hzeros : zeros = 7 - count % 8 := by omega
  rwa [hzeros] at hbytes

/-- Where the tag shares its byte, the data are those of the bits in front of it. -/
theorem Tagged.pack_complete (h : Tagged bytes count) (hc : count % 8 ≠ 0) :
    pack (complete ((ofBytes bytes).take count)) = bytes := by
  rw [complete_of_not (h.length_take.symm ▸ hc), h.length_take, ← h.ofBytes_eq, pack_ofBytes]

/-- Where the tag has a byte to itself, that byte stands behind the data. -/
theorem Tagged.pack_append (h : Tagged bytes count) (hc : count % 8 = 0) :
    pack (complete ((ofBytes bytes).take count)) ++ [0x80] = bytes := by
  have hfront : ofBytes (pack ((ofBytes bytes).take count)) = (ofBytes bytes).take count := by
    rw [ofBytes_pack, h.length_take, hc]
    exact List.append_nil _
  rw [complete_of_mod (h.length_take.symm ▸ hc)]
  calc pack ((ofBytes bytes).take count) ++ [0x80]
      = pack (ofBytes (pack ((ofBytes bytes).take count) ++ [0x80])) := (pack_ofBytes _).symm
    _ = pack ((ofBytes bytes).take count ++ ofBytes [0x80]) := by rw [ofBytes_append, hfront]
    _ = pack (ofBytes bytes) := by
        have hbytes := h.ofBytes_eq
        rw [hc] at hbytes
        exact congrArg pack hbytes.symm
    _ = bytes := pack_ofBytes bytes

end Bits

namespace Bag

open Cell Outcome

/-! ## The two forms -/

/-- The descriptors and the data of a record: all but the numbers of the cells it refers to. -/
def Record.content (record : Record) : Bytes :=
  Bytes.ofNat 1 (refsDescriptor record.refs.length record.kind.isExotic record.mask) ++
    Bytes.ofNat 1 record.sizeDescriptor ++ record.data

theorem Record.bytes_eq (record : Record) (refSize : Nat) :
    record.bytes refSize = record.content ++ (record.refs.map (Bytes.ofNat refSize)).flatten :=
  rfl

/-- The last byte of the data holds the completion tag and no bit in front of it. -/
def Record.LoneTag (record : Record) : Prop :=
  record.bits + 8 = 8 * record.data.length

/-- The descriptors and the data of a cell of whole bytes, with a byte behind them that holds the
tag alone; the second descriptor counts that byte as one that is begun. -/
def overlong (cell : Cell) : Bytes :=
  [UInt8.ofNat (refsDescriptor cell.refs.length cell.isExotic cell.mask),
    UInt8.ofNat (bitsDescriptor cell.bits.length + 1)] ++ (cell.tagged ++ [0x80])

theorem overlong_ne (cell : Cell) : overlong cell ≠ cell.descriptors ++ cell.tagged := by
  intro h
  have hl := congrArg List.length h
  simp [overlong, descriptors] at hl

/-- The second descriptor in front of data of whole bytes, or of data with a tag. -/
theorem Record.Legal.sizeDescriptor_eq {cells own : Nat} {record : Record}
    (h : record.Legal cells own) : record.sizeDescriptor =
      bitsDescriptor record.bits + if record.bits + 8 = 8 * record.data.length then 1 else 0 := by
  unfold sizeDescriptor bitsDescriptor
  rcases h.closed with hfull | htag
  · rw [if_pos hfull, if_neg (by omega)]
    omega
  · -- a byte for the tag alone counts as one that is begun
    have hbounds := htag.length_bounds
    rw [if_neg (by omega)]
    split <;> omega

/-- **A record** is that of its cell in one of the two forms, and a lone tag tells them apart. -/
theorem Record.Legal.content_eq {cells own : Nat} {record : Record} (h : record.Legal cells own)
    {cell : Cell} (hk : cell.kind = record.kind) (hm : cell.mask = record.mask)
    (hb : cell.bits = (Bits.ofBytes record.data).take record.bits)
    (hr : cell.refs.length = record.refs.length) :
    (¬ record.LoneTag → record.content = cell.descriptors ++ cell.tagged) ∧
      (record.LoneTag → cell.bits.length % 8 = 0 ∧ record.content = overlong cell) := by
  have hfirst : Bytes.ofNat 1
      (refsDescriptor record.refs.length record.kind.isExotic record.mask) =
        [UInt8.ofNat (refsDescriptor cell.refs.length cell.isExotic cell.mask)] := by
    rw [Bytes.ofNat_one, hr, isExotic, hk, hm]
  have hlen : cell.bits.length = record.bits := by
    have hle := h.readable.data_le
    rw [hb, List.length_take, Bits.length_ofBytes]
    omega
  have hsize := h.sizeDescriptor_eq
  rw [← hlen] at hsize
  unfold Record.content
  rw [hfirst]
  constructor
  · intro hlone
    rw [if_neg (hlen ▸ hlone), Nat.add_zero] at hsize
    have hdata : cell.tagged = record.data := by
      rw [tagged, hb]
      rcases h.closed with hfull | htag
      · have hall : (Bits.ofBytes record.data).take record.bits = Bits.ofBytes record.data := by
          rw [hfull, ← Bits.length_ofBytes, List.take_length]
        rw [hall, Bits.complete_of_mod (by rw [Bits.length_ofBytes]; omega), Bits.pack_ofBytes]
      · -- no lone tag, so the tag is behind a bit of its byte
        refine htag.pack_complete ?_
        have hbounds := htag.length_bounds
        unfold Record.LoneTag at hlone
        omega
    rw [hsize, hdata]
    rfl
  · intro hlone
    rw [if_pos (hlen ▸ hlone)] at hsize
    have htag : Bits.Tagged record.data record.bits := by
      refine h.closed.resolve_left ?_
      unfold Record.LoneTag at hlone
      omega
    have hmod : record.bits % 8 = 0 := by
      unfold Record.LoneTag at hlone
      omega
    refine ⟨hlen ▸ hmod, ?_⟩
    rw [overlong, tagged, hb, htag.pack_append hmod, ← hb, hsize]
    rfl

/-! ## The records of an accepted bag -/

/-- The cells that a record refers to stand at their numbers. -/
theorem Denotes.exists_made {config : Config} {own : Nat} {record : Record} {cells : List Cell}
    {cell : Cell} (forward : ∀ target ∈ record.refs, own < target)
    (made : ∀ x ∈ cells, Made x) (hcell : cell ∈ cells)
    (hle : (record.bits + 7) / 8 ≤ record.data.length)
    (h : Denotes config own record (cells.drop (own + 1)) cell) :
    ∃ refs made, record.refs.map (cells[·]?) = refs.map some ∧
      Cell.ofBytes record.kind record.data record.bits refs = .ok made ∧
      made.mask = record.mask ∧ (cell = made ∨ Collision [cell, made]) := by
  obtain ⟨refs, fresh, hrefs, hmake, hmask, -, hshare⟩ := h
  -- a number counts from the first cell, a place among those behind the record from the next one
  have hmap : record.refs.map (cells[·]?) = refs.map some := by
    rw [← hrefs]
    refine List.map_congr_left fun target ht => ?_
    have := forward target ht
    rw [List.getElem?_drop]
    congr 1
    omega
  refine ⟨refs, fresh, hmap, ofBytes_eq_ok_iff.mpr ⟨hle, hmake⟩, hmask, ?_⟩
  rcases hshare with ⟨heq, -⟩ | ⟨-, hhash⟩
  · exact .inl heq
  · rcases collision_or_free [cell, fresh] with hc | free
    · exact .inr hc
    · have hfresh : Made fresh := by
        refine made_iff.mpr ⟨sound_of_make hmake, ?_⟩
        rw [refs_make hmake]
        intro ref href
        have hmem : some ref ∈ record.refs.map (cells[·]?) := hmap ▸ List.mem_map_of_mem href
        obtain ⟨target, -, ht⟩ := List.mem_map.mp hmem
        exact made ref (List.mem_of_getElem? ht)
      exact .inl (eq_of_hash_eq (by simpa using ⟨made cell hcell, hfresh⟩) free
        (reachable_self (by simp)) (reachable_self (by simp)) hhash)

/-- **The records of an accepted bag.** Every record of a bag that is accepted makes a cell of the
cells it refers to, and the cell of the record is that one or collides with it. The record is
printed as its descriptors and its data, and behind them the numbers of the cells it refers to. The
descriptors and the data are those of the cell exactly if the tag does not have the last byte to
itself; else the cell is one of whole bytes, and the record is its overlong form. -/
theorem decode_records (config : Config) (data : Bytes) (roots : List Cell)
    (accepted : decode config data = .ok roots) :
    ∃ (source : Source) (cells : List Cell), data = source.bytes ∧
      readBag config data ⟨data, 0⟩ =
        .ok (source.header, source.records) ⟨[], data.length⟩ ∧
      assemble config 0 source.records = .ok cells ∧
      source.header.roots.mapM (Checked.item cells) = .ok roots ∧
      ∀ (own : Nat) (record : Record), source.records[own]? = some record →
        ∃ cell refs made, cells[own]? = some cell ∧
          record.refs.map (cells[·]?) = refs.map some ∧
          Cell.ofBytes record.kind record.data record.bits refs = .ok made ∧
          (cell = made ∨ Collision [cell, made]) ∧
          source.printed[own]? = some (record.content ++
            (record.refs.map (Bytes.ofNat source.header.refSize)).flatten) ∧
          (record.content = made.descriptors ++ made.tagged ↔ ¬ record.LoneTag) ∧
          (record.LoneTag → made.bits.length % 8 = 0 ∧ record.content = overlong made) := by
  obtain ⟨source, cells, hlegal, hdata, hread, hcells, hroots⟩ := exists_of_decode accepted
  refine ⟨source, cells, hdata, hread, hcells, hroots, fun own record hrecord => ?_⟩
  have hbuilds := (assemble_eq_ok_iff hlegal.forward).mp hcells
  have hown := hlegal.records own record hrecord
  have hlt : own < cells.length :=
    hbuilds.length_eq ▸ (List.getElem?_eq_some_iff.mp hrecord).choose
  have hcell : cells[own]? = some cells[own] := List.getElem?_eq_getElem hlt
  have hdenotes := hbuilds.denotes own record _ hrecord hcell
  rw [Nat.zero_add] at hdenotes
  obtain ⟨refs, made, hrefs, hmade, hmask, hsame⟩ :=
    hdenotes.exists_made (fun target ht => (hown.refs target ht).1) (made_assemble hcells)
      (List.getElem_mem hlt) hown.readable.data_le
  have hmake := (ofBytes_eq_ok_iff.mp hmade).2
  have hcount : made.refs.length = record.refs.length := by
    have hl := congrArg List.length hrefs
    rw [List.length_map, List.length_map] at hl
    rw [refs_make hmake, hl]
  obtain ⟨hproper, hlone⟩ :=
    hown.content_eq (kind_make hmake) hmask (bits_make hmake) hcount
  refine ⟨cells[own], refs, made, hcell, hrefs, hmade, hsame, ?_, ⟨fun h htag => ?_, hproper⟩,
    hlone⟩
  · rw [Source.printed, List.getElem?_map, hrecord, Option.map_some, Record.bytes_eq]
  · exact overlong_ne made ((hlone htag).2.symm.trans h)

/-- A bag of the empty cell, of whose data the tag is the only byte. -/
def loneBag : Bytes := [0xb5, 0xee, 0x9c, 0x72, 1, 1, 1, 1, 0, 3, 0, 0, 1, 0x80]

theorem decode_records_loneBag :
    decode {} loneBag = .ok [.empty] ∧ ∃ (source : Source) (record : Record),
      loneBag = source.bytes ∧ source.records = [record] ∧ record.LoneTag ∧
        record.content = overlong .empty ∧
        record.content ≠ Cell.empty.descriptors ++ Cell.empty.tagged := by
  have accepted : decode {} loneBag = .ok [.empty] := rfl
  refine ⟨accepted, ?_⟩
  obtain ⟨source, cells, hdata, hread, -, -, hrecords⟩ :=
    decode_records {} loneBag [.empty] accepted
  have hread' : readBag {} loneBag ⟨loneBag, 0⟩ =
      .ok (⟨⟨false, false, false, false, 1⟩, 1, 1, 3, [0]⟩, [⟨.ordinary, .empty, [0x80], 0, []⟩])
        ⟨[], 14⟩ := rfl
  rw [hread'] at hread
  have hrecord : [⟨.ordinary, .empty, [0x80], 0, []⟩] = source.records := by
    injection hread with h
    injection h
  obtain ⟨cell, refs, made, -, hrefs, hmade, -, -, hcontent, hlone⟩ :=
    hrecords 0 ⟨.ordinary, .empty, [0x80], 0, []⟩ (hrecord ▸ rfl)
  have htag : Record.LoneTag ⟨.ordinary, .empty, [0x80], 0, []⟩ := rfl
  obtain rfl : refs = [] := (List.map_eq_nil_iff.mp hrefs.symm)
  obtain rfl : Cell.empty = made := by
    injection (show Cell.ofBytes .ordinary [0x80] 0 [] = .ok .empty from rfl).symm.trans hmade
  exact ⟨source, _, hdata, hrecord.symm, htag, (hlone htag).2, fun h => hcontent.mp h htag⟩

end Bag

end BagOfCells
