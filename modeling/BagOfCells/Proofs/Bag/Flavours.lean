import BagOfCells.Proofs.Bag.RoundTrip
import BagOfCells.Proofs.Bag.Safety

/-!
# The flavours of a bag

A bag with an index is recast when its magic number, its flags, its list of roots and its index are
replaced while its sizes, its counts and its records stay. It can go without the index, give the low
bits of the entries away, or take one of the older forms, which do not list the root. What a bag
gives depends on its records and roots alone, so the flavours of a bag are decoded alike.

## Main definitions

* `Bag.recast`: a bag with other bytes around its sizes and its records
* `Bag.withoutIndex`, `Bag.withCacheBits`, `Bag.legacy`, `Bag.legacyWithCrc`: its flavours
* `Bag.Source.recast`: what a bag says, in another form

## Main results

* `Bag.Source.Framed.recast`: another form keeps the format
* `Bag.Written.body_recast`: it is printed as the bag is recast
* `Bag.decodeRoot_flavours`: all flavours of the bag of a root give the root
-/

namespace BagOfCells.Bag

open Cell Outcome

/-! ## The parts of a bag -/

/-- The `size` bytes of a bag from an offset on. -/
def part (bag : Bytes) (offset size : Nat) : Bytes := (bag.drop offset).take size

/-- The size of offsets, the counts and the size of all records. -/
def sizesPart (bag : Bytes) : Bytes := part bag 5 (1 + 3 * sizeField bag + offsetField bag)

def rootsOffset (bag : Bytes) : Nat := 6 + 3 * sizeField bag + offsetField bag

/-- The numbers of the roots. -/
def rootsPart (bag : Bytes) : Bytes := part bag (rootsOffset bag) (rootCount bag * sizeField bag)

def indexOffset (bag : Bytes) : Nat := rootsOffset bag + rootCount bag * sizeField bag

/-- The entries of the index, if there is one. -/
def entryFields (bag : Bytes) : List Nat :=
  (List.range (cellCount bag)).map fun i =>
    field bag (indexOffset bag + i * offsetField bag) (offsetField bag)

/-- The records behind the index. -/
def recordsPart (bag : Bytes) : Bytes :=
  part bag (indexOffset bag + cellCount bag * offsetField bag) (totalField bag)

/-! ## The flavours -/

/-- A bag with the sizes, the counts and the records of another one that has an index. -/
def recast (bag : Bytes) (magicNumber flags : Nat) (roots : Bytes) (entries : List Nat) : Bytes :=
  Bytes.ofNat 4 magicNumber ++ Bytes.ofNat 1 flags ++ sizesPart bag ++ roots ++
    (entries.map (Bytes.ofNat (offsetField bag))).flatten ++ recordsPart bag

/-- A bag without its index and without the flag of it. -/
def withoutIndex (bag : Bytes) : Bytes := recast bag magic (flagsField bag - 128) (rootsPart bag) []

/-- A bag with the flag of cache bits and other entries in its index. -/
def withCacheBits (bag : Bytes) (entries : List Nat) : Bytes :=
  recast bag magic (flagsField bag + 32) (rootsPart bag) entries

/-- A bag in the older form, with the size of cell numbers for flags and without a list of roots. -/
def legacy (bag : Bytes) : Bytes := recast bag legacyMagic (sizeField bag) [] (entryFields bag)

/-- Some bytes with their checksum behind them. -/
def withCrc (body : Bytes) : Bytes := body ++ Bytes.ofNatReversed 4 (Crc32c.checksum body).toNat

/-- A bag in the older form with a checksum. -/
def legacyWithCrc (bag : Bytes) : Bytes :=
  withCrc (recast bag legacyCrcMagic (sizeField bag) [] (entryFields bag))

/-! ## Another form -/

/-- What a bag says, in another form. -/
def Source.recast (source : Source) (form : Preamble) (entries : List Nat) (trailer : Bytes) :
    Source where
  header := { source.header with toPreamble := form }
  entries := entries
  records := source.records
  trailer := trailer

section

variable {config : Config} {source : Source}

/-- **Another form** keeps the format, if its index lists the ends of the records too. -/
theorem Source.Framed.recast (h : source.Framed config) {form : Preamble}
    (hsize : form.refSize = source.header.refSize) (hform : form.Legal)
    (hroot : form.legacy = true → source.header.roots = [0]) {entries : List Nat}
    (hoffsets : entries.map (fun entry => if form.hasCacheBits then entry / 2 else entry) =
      if form.hasIndex then ends 0 source.printed else [])
    (hlt : ∀ entry ∈ entries, entry < 256 ^ source.header.offsetSize) {trailer : Bytes}
    (htrailer : trailer.length = if form.hasCrc then 4 else 0) :
    (source.recast form entries trailer).Framed config := by
  obtain ⟨legacy, hasIndex, hasCrc, hasCacheBits, refSize⟩ := form
  obtain rfl : refSize = source.header.refSize := hsize
  exact {
    header := { h.header with form := hform, root := hroot }
    offsets := hoffsets
    entries_lt := hlt
    cells := h.cells
    records := h.records
    total := h.total
    trailer := htrailer }

/-- **What a bag gives** depends on its records and its roots alone. -/
theorem Source.Legal.decode_recast (h : source.Legal config) {form : Preamble} {entries : List Nat}
    {trailer : Bytes} (hrecast : (source.recast form entries trailer).Legal config) :
    decode config (source.recast form entries trailer).bytes = decode config source.bytes := by
  rw [decode_of_readBag (readBag_of_legal hrecast), decode_of_readBag (readBag_of_legal h)]
  rfl

end

/-! ## The parts of a written bag -/

theorem part_append {front bytes rest : Bytes} {offset size : Nat} (ho : front.length = offset)
    (hs : bytes.length = size) : part (front ++ (bytes ++ rest)) offset size = bytes := by
  rw [part, ← ho, List.drop_left, ← hs, List.take_left]

/-- Numbers in fields of one size are found one behind the other. -/
theorem map_field_flatten {size : Nat} {numbers : List Nat} (h : ∀ n ∈ numbers, n < 256 ^ size)
    {front : Bytes} {offset : Nat} (ho : front.length = offset) (rest : Bytes) :
    (List.range numbers.length).map (fun i => field
      (front ++ ((numbers.map (Bytes.ofNat size)).flatten ++ rest)) (offset + i * size) size) =
        numbers := by
  induction numbers generalizing front offset with
  | nil => rfl
  | cons n numbers ih =>
    obtain ⟨hn, hnumbers⟩ := List.forall_mem_cons.mp h
    have hfront : (front ++ Bytes.ofNat size n).length = offset + size := by
      rw [List.length_append, Bytes.length_ofNat, ho]
    have hrest := ih hnumbers hfront
    -- behind the first field, the fields of the others begin where it ends
    rw [List.length_cons, List.range_succ_eq_map, List.map_cons, List.map_map, List.map_cons,
      List.flatten_cons, List.append_assoc]
    refine List.cons_eq_cons.mpr ⟨?_, ?_⟩
    · rw [Nat.zero_mul, Nat.add_zero, field_append ho (Bytes.length_ofNat ..),
        Bytes.toNat_ofNat hn]
    · refine Eq.trans (List.map_congr_left fun i _ => ?_) hrest
      rw [Function.comp_apply, List.append_assoc, Nat.succ_mul, Nat.add_assoc, Nat.add_comm size]

section

variable {roots : List Cell} {flags : Flags} (fits : Written.Fits roots)
  (hr : roots.length < 256 ^ Written.refSize roots)

/-- The size of offsets, the counts and the size of all records of a written bag. -/
def Written.sizes (roots : List Cell) : Bytes :=
  [UInt8.ofNat (offsetSize roots)] ++ (Bytes.ofNat (refSize roots) (order roots).length ++
    (Bytes.ofNat (refSize roots) roots.length ++ (Bytes.ofNat (refSize roots) 0 ++
      Bytes.ofNat (offsetSize roots) (total roots))))

/-- The numbers of the roots of a written bag. -/
def Written.numbers (roots : List Cell) : Bytes := (roots.map (number roots)).flatten

/-- A written bag part by part. -/
theorem Written.bag_eq_parts (roots : List Cell) (flags : Flags) :
    bag roots flags = preamble roots flags ++ (sizes roots ++ (numbers roots ++
      (index roots flags ++ ((records roots).flatten ++ checksum roots flags)))) := by
  simp only [bag, body, header, sizes, numbers, List.append_assoc]

theorem Written.length_preamble : (preamble roots flags).length = 5 := by
  simp [preamble]

theorem Written.length_sizes :
    (sizes roots).length = 1 + 3 * refSize roots + offsetSize roots := by
  simp only [sizes, List.length_append, Bytes.length_ofNat, List.length_singleton]
  omega

include fits

theorem sizesPart_written : sizesPart (Written.bag roots flags) = Written.sizes roots := by
  rw [sizesPart, sizeField_written fits, offsetField_written fits, Written.bag_eq_parts]
  exact part_append Written.length_preamble Written.length_sizes

theorem rootsOffset_written :
    rootsOffset (Written.bag roots flags) =
      (Written.preamble roots flags ++ Written.sizes roots).length := by
  rw [rootsOffset, sizeField_written fits, offsetField_written fits, List.length_append,
    Written.length_preamble, Written.length_sizes]
  omega

include hr

theorem rootsPart_written : rootsPart (Written.bag roots flags) = Written.numbers roots := by
  rw [rootsPart, rootsOffset_written fits, sizeField_written fits, rootCount_written fits hr,
    Written.bag_eq_parts, ← List.append_assoc]
  exact part_append rfl (Written.length_flatten_numbers roots)

theorem indexOffset_written :
    indexOffset (Written.bag roots flags) =
      (Written.preamble roots flags ++ Written.sizes roots ++ Written.numbers roots).length := by
  have hnumbers : (Written.numbers roots).length = roots.length * Written.refSize roots :=
    Written.length_flatten_numbers roots
  rw [indexOffset, rootsOffset_written fits, sizeField_written fits, rootCount_written fits hr,
    ← hnumbers, ← List.length_append]

variable (hindex : flags.hasIndex = true)

include hindex

theorem entryFields_written :
    entryFields (Written.bag roots flags) = ends 0 (Written.records roots) := by
  have hlt : ∀ entry ∈ ends 0 (Written.records roots), entry < 256 ^ Written.offsetSize roots :=
    fun entry hentry =>
      (le_of_mem_ends (Nat.zero_add _) hentry).trans_lt (lt_pow_bytesNeeded (Written.total roots))
  have hlength : (ends 0 (Written.records roots)).length = (order roots).length := by
    rw [length_ends, Written.records, List.length_map]
  rw [entryFields, cellCount_written fits, offsetField_written fits,
    indexOffset_written fits hr, Written.bag_eq_parts, ← List.append_assoc, ← List.append_assoc,
    Written.index, if_pos hindex, ← hlength]
  exact map_field_flatten hlt rfl _

theorem recordsPart_written :
    recordsPart (Written.bag roots flags) = (Written.records roots).flatten := by
  have hlength : (Written.index roots flags).length =
      (order roots).length * Written.offsetSize roots := by
    rw [Written.length_index, if_pos hindex]
  rw [recordsPart, indexOffset_written fits hr, cellCount_written fits, offsetField_written fits,
    totalField_written fits, ← hlength, ← List.length_append, Written.bag_eq_parts,
    ← List.append_assoc, ← List.append_assoc, ← List.append_assoc]
  exact part_append rfl rfl

/-- **A written bag** is recast as another form of what it says is printed. -/
theorem Written.body_recast {form : Preamble} (hsize : form.refSize = refSize roots)
    (entries : List Nat) (trailer : Bytes) :
    ((source roots flags).recast form entries trailer).body =
      recast (bag roots flags) form.magicNumber form.flags
        (if form.legacy then [] else numbers roots) entries := by
  obtain ⟨legacy, hasIndex, hasCrc, hasCacheBits, size⟩ := form
  obtain rfl : size = refSize roots := hsize
  have hprinted : ((source roots flags).recast ⟨legacy, hasIndex, hasCrc, hasCacheBits,
      refSize roots⟩ entries trailer).printed = records roots := printed_source roots flags
  rw [Source.body, hprinted, Bag.recast, sizesPart_written fits, offsetField_written fits,
    recordsPart_written fits hr hindex, Header.bytes, Preamble.bytes]
  simp only [Source.recast, source, contents, sizes, numbers, Bytes.ofNat_one, List.length_map,
    List.map_map, List.append_assoc]
  rfl

end

/-! ## All flavours -/

/-- The flags of a bag with an index and without a checksum are those of the index and the size. -/
theorem flagsField_indexed {roots : List Cell} (fits : Written.Fits roots) :
    flagsField (Written.bag roots ⟨true, false⟩) = Written.refSize roots + 128 := by
  have h₁ : 1 ≤ Written.refSize roots := bytesNeeded_pos _
  have h₄ := Written.refSize_le fits.cells_lt
  rw [flagsField_written]
  generalize Written.refSize roots = size at h₁ h₄
  interval_cases size <;> rfl

/-- A bag with an index and without a checksum is made of its parts. -/
theorem recast_written {roots : List Cell} (fits : Written.Fits roots)
    (hr : roots.length < 256 ^ Written.refSize roots) :
    recast (Written.bag roots ⟨true, false⟩) magic (Written.refSize roots + 128)
        (Written.numbers roots) (ends 0 (Written.records roots)) =
      Written.bag roots ⟨true, false⟩ := by
  have hflags : (Flags.byte ⟨true, false⟩ (Written.refSize roots)).toNat =
      Written.refSize roots + 128 := flagsField_written.symm.trans (flagsField_indexed fits)
  rw [recast, sizesPart_written fits, offsetField_written fits, recordsPart_written fits hr rfl,
    Written.bag_eq_parts, Written.preamble, ← hflags, Bytes.ofNat_one, UInt8.ofNat_toNat]
  simp only [Written.index, Written.checksum, if_true, Bool.false_eq_true, if_false,
    List.append_nil, List.append_assoc]

/-- What is doubled, with a low bit of its own each, is halved again. -/
theorem map_halves {entries doubled : List Nat}
    (h : List.Forall₂ (fun entry n => n = 2 * entry ∨ n = 2 * entry + 1) entries doubled) :
    doubled.map (· / 2) = entries := by
  induction h with
  | nil => rfl
  | cons hn _ ih =>
    rw [List.map_cons, ih]
    exact congrArg (List.cons · _) (by omega)

/-- A lone root is the first cell. -/
theorem place_root (root : Cell) : place (order [root]) root = 0 := by
  have hbeq : (root == root) = true := beq_iff.mpr rfl
  rw [order, visitAll, visitAll, visit_eq, List.any_nil, if_neg (by decide), place,
    List.findIdx_cons, hbeq, cond_true]

theorem lone_lt (root : Cell) : [root].length < 256 ^ Written.refSize [root] :=
  Nat.one_lt_pow (Nat.ne_of_gt (bytesNeeded_pos _)) (by decide)

section

variable {root : Cell} (fits : Written.Fits [root])
  (cells_le : (order [root]).length ≤ 1048576) (depth_le : ∀ cell ∈ order [root], cell.depth ≤ 1024)

include fits

theorem lone_le : [root].length ≤ (order [root]).length := by
  have hroot := reachable_self (List.mem_singleton_self root)
  exact List.length_pos_of_mem ((mem_order_iff fits.inj).mpr hroot)

include cells_le

theorem legal_lone : (Written.source [root] ⟨true, false⟩).Legal {} :=
  Written.legal_source fits ⟨true, false⟩ (by simp) (lone_le fits) cells_le (by decide : 1 ≤ 16)

include depth_le

/-- **A flavour** of the bag of a root gives the root, if its form is one of the format and its
index lists the ends of the records. -/
theorem decodeRoot_recast (form : Preamble) (hsize : form.refSize = Written.refSize [root])
    (hform : form.Legal) {entries : List Nat}
    (hoffsets : entries.map (fun entry => if form.hasCacheBits then entry / 2 else entry) =
      if form.hasIndex then ends 0 (Written.records [root]) else [])
    (hlt : ∀ entry ∈ entries, entry < 256 ^ Written.offsetSize [root]) :
    let body := recast (Written.bag [root] ⟨true, false⟩) form.magicNumber form.flags
      (if form.legacy then [] else Written.numbers [root]) entries
    decodeRoot (if form.hasCrc then withCrc body else body) = .ok root := by
  intro body
  let trailer := if form.hasCrc then Bytes.ofNatReversed 4 (Crc32c.checksum body).toNat else []
  let flavour := (Written.source [root] ⟨true, false⟩).recast form entries trailer
  have hbody : flavour.body = body :=
    Written.body_recast fits (lone_lt root) rfl hsize entries trailer
  have hlegal := legal_lone fits cells_le
  have hflavour : flavour.Legal {} := by
    have hroots : (Written.source [root] ⟨true, false⟩).header.roots = [0] :=
      congrArg (List.cons · []) (place_root root)
    refine ⟨hlegal.toFramed.recast hsize hform (fun _ => hroots) ?_ hlt ?_, fun hcrc _ => ?_⟩
    · rw [Written.printed_source]
      exact hoffsets
    · unfold trailer
      split <;> simp
    · rw [hbody]
      exact if_pos hcrc
  have hbytes : (if form.hasCrc then withCrc body else body) = flavour.bytes := by
    rw [Source.bytes, hbody]
    unfold withCrc flavour Source.recast trailer
    split
    · rfl
    · exact (List.append_nil _).symm
  have hdecode : decode {} (Written.bag [root] ⟨true, false⟩) = .ok [root] :=
    decode_written fits (by simp) (lone_le fits) cells_le (by decide : 1 ≤ 16) depth_le
  rw [decodeRoot, hbytes, hlegal.decode_recast hflavour, Written.bytes_source fits, hdecode]
  rfl

end

/-- **The flavours of a bag.** The bag of a root with an index and without a checksum gives the root
back. So it does without its index; with cache bits, as long as there is room for them, whatever the
low bit of each entry is; and in either of the older forms. -/
theorem decodeRoot_flavours (root : Cell) (made : Made root)
    (cells_le : (reachable [root]).ncard ≤ 1048576) (depth_le : root.depth ≤ 1024) :
    Collision [root] ∨ ∃ bag, encode [root] ⟨true, false⟩ = .ok bag ∧
      decodeRoot bag = .ok root ∧ decodeRoot (withoutIndex bag) = .ok root ∧
      (2 * totalField bag + 1 < 256 ^ offsetField bag → ∀ entries : List Nat,
        List.Forall₂ (fun entry doubled => doubled = 2 * entry ∨ doubled = 2 * entry + 1)
          (entryFields bag) entries → decodeRoot (withCacheBits bag entries) = .ok root) ∧
      decodeRoot (legacy bag) = .ok root ∧ decodeRoot (legacyWithCrc bag) = .ok root := by
  rcases collision_or_free [root] with h | free
  · exact .inl h
  have hmade : ∀ cell ∈ [root], Made cell := List.forall_mem_singleton.mpr made
  have inj : Set.InjOn Cell.hash (reachable [root]) := by
    intro a ha b hb
    exact eq_of_hash_eq hmade free ha hb
  have fits := fits_of_made hmade inj (by omega)
  have hr := lone_lt root
  have hdepth := depth_le_of_roots hmade inj (List.forall_mem_singleton.mpr depth_le)
  rw [← length_order inj] at cells_le
  have hsize : 1 ≤ Written.refSize [root] ∧ Written.refSize [root] ≤ 4 :=
    ⟨bytesNeeded_pos _, Written.refSize_le fits.cells_lt⟩
  have hends : ∀ entry ∈ ends 0 (Written.records [root]), entry ≤ Written.total [root] :=
    fun _ => le_of_mem_ends (Nat.zero_add _)
  have hlt : ∀ entry ∈ ends 0 (Written.records [root]),
      entry < 256 ^ Written.offsetSize [root] :=
    fun entry hentry => (hends entry hentry).trans_lt (lt_pow_bytesNeeded _)
  refine .inr ⟨_, encode_eq inj (by simp), ?_, ?_, fun hroom entries hdoubled => ?_, ?_, ?_⟩
  · rw [← recast_written fits hr]
    exact decodeRoot_recast fits cells_le hdepth ⟨false, true, false, false, _⟩ rfl
      ⟨hsize, nofun, nofun⟩ (List.map_id _) hlt
  · rw [withoutIndex, flagsField_indexed fits, Nat.add_sub_cancel, rootsPart_written fits hr]
    exact decodeRoot_recast fits cells_le hdepth ⟨false, false, false, false, _⟩ rfl
      ⟨hsize, nofun, nofun⟩ rfl (by simp)
  · rw [entryFields_written fits hr rfl] at hdoubled
    rw [totalField_written fits, offsetField_written fits] at hroom
    have hhalves := map_halves hdoubled
    rw [withCacheBits, flagsField_indexed fits, rootsPart_written fits hr, Nat.add_right_comm]
    refine decodeRoot_recast fits cells_le hdepth ⟨false, true, false, true, _⟩ rfl
      ⟨hsize, fun _ => rfl, nofun⟩ hhalves fun entry hentry => ?_
    have := hends (entry / 2) (hhalves ▸ List.mem_map_of_mem hentry)
    omega
  · rw [legacy, sizeField_written fits, entryFields_written fits hr rfl]
    exact decodeRoot_recast fits cells_le hdepth ⟨true, true, false, false, _⟩ rfl
      ⟨hsize, nofun, fun _ => ⟨rfl, rfl⟩⟩ (List.map_id _) hlt
  · rw [legacyWithCrc, sizeField_written fits, entryFields_written fits hr rfl]
    exact decodeRoot_recast fits cells_le hdepth ⟨true, true, true, false, _⟩ rfl
      ⟨hsize, nofun, fun _ => ⟨rfl, rfl⟩⟩ (List.map_id _) hlt

/-- The bag of two cells, with an index. -/
def twigBag : Bytes :=
  [0xb5, 0xee, 0x9c, 0x72, 0x81, 1, 2, 1, 0, 6, 0, 4, 6, 1, 1, 0xa8, 1, 0, 0]

theorem encode_twigBag : encode [twig] ⟨true, false⟩ = .ok twigBag := by
  have h : (encode [twig] ⟨true, false⟩).toOption = some twigBag := by decide +kernel
  cases hbag : encode [twig] ⟨true, false⟩ with
  | error e =>
    rw [hbag] at h
    cases h
  | ok bag =>
    rw [hbag] at h
    exact congrArg _ (Option.some.inj h)

/-- The bag of two cells without its index, with one of the free bits set, and in the older
forms. -/
theorem decodeRoot_flavours_twig :
    decodeRoot [0xb5, 0xee, 0x9c, 0x72, 1, 1, 2, 1, 0, 6, 0, 1, 1, 0xa8, 1, 0, 0] = .ok twig ∧
    decodeRoot [0xb5, 0xee, 0x9c, 0x72, 0xa1, 1, 2, 1, 0, 6, 0, 9, 12, 1, 1, 0xa8, 1, 0, 0] =
      .ok twig ∧
    decodeRoot [0x68, 0xff, 0x65, 0xf3, 1, 1, 2, 1, 0, 6, 4, 6, 1, 1, 0xa8, 1, 0, 0] = .ok twig ∧
    decodeRoot [0xac, 0xc3, 0xa7, 0x28, 1, 1, 2, 1, 0, 6, 4, 6, 1, 1, 0xa8, 1, 0, 0,
      0x83, 0x93, 0xd3, 0xa9] = .ok twig := by
  have hcells : (reachable [twig]).ncard ≤ 1048576 := by
    rw [reachable_twig, ncard_twig]
    decide
  rcases decodeRoot_flavours twig made_twig hcells (by decide) with
    ⟨a, ha, b, hb, hne, heq⟩ | ⟨bag, hbag, -, hplain, hcache, hlegacy, hcrc⟩
  · exact absurd (collisionFree_twig reachable_twig a ha b hb heq) hne
  · obtain rfl : twigBag = bag := Except.ok.inj (encode_twigBag.symm.trans hbag)
    have hsum : legacyWithCrc twigBag = [0xac, 0xc3, 0xa7, 0x28, 1, 1, 2, 1, 0, 6, 4, 6, 1, 1, 0xa8,
        1, 0, 0, 0x83, 0x93, 0xd3, 0xa9] := by decide +kernel
    exact ⟨hplain, hcache (by decide) [9, 12] (by decide), hlegacy, hsum ▸ hcrc⟩

end BagOfCells.Bag
