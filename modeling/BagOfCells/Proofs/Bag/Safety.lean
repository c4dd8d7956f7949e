import BagOfCells.Bag.Decode
import BagOfCells.Proofs.Bag.Reader
import BagOfCells.Proofs.Bits
import BagOfCells.Proofs.Cell.Made

/-!
# The safety of the decoder

Whatever bytes a decoder is given, it looks at nothing outside them and none of its numbers leaves a
machine word. Each step of the reader is guarded, and what the records say keeps every later lookup
in range: references point to later records, and data are as long as their bits. So the decoder
gives cells or refuses, but for one case. A pruned branch stores the depths of what it cuts off, and
nothing bounds a stored depth; where a record puts a cell above such a depth and the sum leaves two
bytes, there is no answer.

## Main definitions

* `Bag.Readable`: what a record says keeps within the bag
* `Bag.Forward`: all records of a bag are readable
* `Bag.DeepRecord`: a record whose cell would be too deep

## Main results

* `Bag.guarded_readBag`: the reader is guarded
* `Bag.decode_safe`: what becomes of every byte string
-/

namespace BagOfCells.Bag

open Cell Outcome

/-- What record `own` says keeps within a bag of `cells` cells. -/
structure Readable (cells own : Nat) (record : Record) : Prop where
  bits_le : record.bits ≤ Cell.maxBits
  refs_le : record.refs.length ≤ Cell.maxRefs
  data_le : (record.bits + 7) / 8 ≤ record.data.length
  refs : ∀ target ∈ record.refs, own < target ∧ target < cells

/-- The records from number `own` on keep within a bag of `cells` cells. -/
def Forward (cells : Nat) : (own : Nat) → List Record → Prop
  | own, [] => own = cells
  | own, record :: records => Readable cells own record ∧ Forward cells (own + 1) records

/-! ## The header -/

theorem isRefusal_of_preamble {magicNumber byte : Nat} {e : CellError}
    (h : preamble magicNumber byte = .error e) : e.isRefusal = true := by
  unfold preamble at h
  split at h
  · split at h <;> cases h
    rfl
  · split at h
    · cases h
    · split at h <;> cases h
      rfl

section

variable {size low : Nat} (hs : size < Bits.bound 64)

include hs

theorem guarded_readPreamble :
    Guarded size low readPreamble fun form => form.refSize ≤ 4 := by
  apply (guarded_nat hs 4).bind
  intro magicNumber _
  apply (guarded_nat hs 1).bind
  intro byte _
  apply (guarded_ofExcept fun e => isRefusal_of_preamble).bind
  intro form _
  apply Guarded.after_ensure
  intro _
  apply Guarded.after_ensure
  intro hsize
  simp only [Bool.and_eq_true, decide_eq_true_eq] at hsize
  exact .pure hsize.2

omit hs in
theorem guarded_checkCounts {config : Config} {legacy : Bool} {cells roots absent : Nat}
    (hw : roots + absent < Bits.bound 64) :
    Guarded size low (checkCounts config legacy cells roots absent) fun _ => 0 < cells := by
  apply Guarded.after_ensure
  intro hcells
  apply Guarded.after_ensure
  intro _
  apply Guarded.after_ensure
  intro _
  apply Guarded.after_ensure
  intro _
  apply Guarded.after_ensure
  intro _
  apply (guarded_ofExcept_of_ok (Checked.word_eq_ok hw)).bind
  intro _ _
  apply Guarded.after_ensure
  intro _
  apply (guarded_ensure _ _).mono
  intro _ _
  exact Nat.pos_of_ne_zero (of_decide_eq_true hcells)

theorem guarded_readCellNumber (refSize count : Nat) :
    Guarded size low (readCellNumber refSize count) fun n => n < count := by
  apply (guarded_nat hs refSize).bind
  intro n _
  split
  · exact .throw rfl
  · exact .pure (by omega)

/-- **The header** is read safely; the roots it names are cells. -/
theorem guarded_readHeader (config : Config) :
    Guarded size low (readHeader config) fun header =>
      ∀ root ∈ header.roots, root < header.cells := by
  apply (guarded_readPreamble hs).bind
  intro form hform
  apply (guarded_nat hs 1).bind
  intro _ _
  apply Guarded.after_ensure
  intro _
  apply (guarded_nat hs _).bind
  intro cells _
  apply (guarded_nat hs _).bind
  intro roots hroots
  apply (guarded_nat hs _).bind
  intro absent habsent
  -- the counts are words of at most four bytes, so their sum is one of eight
  have hw : roots + absent < Bits.bound 64 := by
    have : 256 ^ form.refSize ≤ 256 ^ 4 := Nat.pow_le_pow_right (by omega) hform
    rw [Bits.bound_eq]
    omega
  apply (guarded_checkCounts hw).bind
  intro _ hcells
  apply (guarded_nat hs _).bind
  intro total _
  apply Guarded.after_ensure
  intro _
  split
  · exact .pure (by simpa using hcells)
  · apply (Guarded.many (guarded_readCellNumber hs _ _) _).bind
    intro numbers hnumbers
    exact .pure hnumbers.2

/-! ## The index -/

theorem guarded_readEntries (header : Header) (count previous : Nat) :
    Guarded size low (readEntries header count previous) fun entries =>
      entries.length = count := by
  induction count generalizing previous with
  | zero =>
    apply Guarded.after_ensure
    intro _
    exact .pure rfl
  | succ count ih =>
    apply (guarded_nat hs _).bind
    intro entry _
    apply Guarded.after_ensure
    intro _
    apply (ih _).bind
    intro entries h
    exact .pure (by rw [List.length_cons, h])

theorem guarded_readIndex (header : Header) :
    Guarded size low (readIndex header) fun index =>
      ∀ entries, index = some entries → entries.length = header.cells := by
  unfold readIndex
  split
  · apply (guarded_readEntries hs header _ _).bind
    intro entries h
    refine .pure ?_
    rintro _ ⟨⟩
    exact h
  · exact .pure (by simp)

/-! ## Records -/

omit hs in
/-- The tag lies in the last byte, if there is one. -/
theorem guarded_recordBits (own descriptor : Nat) {data : Bytes}
    (hd : data.length = (descriptor + 1) / 2) :
    Guarded size low (recordBits own descriptor data) fun bits =>
      bits ≤ 8 * data.length ∧ (descriptor % 2 = 1 → bits < 8 * data.length) := by
  unfold recordBits
  split
  · next h => exact .pure ⟨le_rfl, by omega⟩
  · next h =>
    -- an odd descriptor asks for at least one byte of data
    have hpos : data.length - 1 < data.length := by omega
    have hitem : (Checked.minus data.length 1 >>= Checked.item data) =
        .ok data[data.length - 1] := by
      rw [Checked.minus_eq_ok (by omega)]
      exact Checked.item_eq_ok hpos
    rw [hitem, ofExcept_ok, pure_bind]
    apply Guarded.after_ensure
    intro hlast
    have hz := Bits.trailingZeros_lt (by simpa using hlast)
    rw [Checked.minus_eq_ok (by omega)]
    exact .pure ⟨by omega, by omega⟩

omit hs in
theorem guarded_recordKind (own : Nat) (exotic : Bool) {bits : Nat} {data : Bytes}
    (hb : bits ≤ 8 * data.length) :
    Guarded size low (recordKind own exotic bits data) fun _ => True := by
  unfold recordKind
  split
  · exact .pure trivial
  · apply Guarded.after_ensure
    intro h₈
    have hpos : 0 < data.length := by
      have := of_decide_eq_true h₈
      omega
    rw [Checked.item_eq_ok hpos, ofExcept_ok, pure_bind]
    split
    · exact .pure trivial
    · exact .throw rfl

/-- **A record** is read safely and keeps within the bag. -/
theorem guarded_readRecord (header : Header) (own : Nat) :
    Guarded size low (readRecord header own) (Readable header.cells own) := by
  apply (guarded_nat hs 1).bind
  intro first _
  apply (guarded_nat hs 1).bind
  intro second hsecond
  apply Guarded.after_ensure
  intro hrefs
  apply Guarded.after_ensure
  intro _
  apply (guarded_bytes hs _).bind
  intro data hdata
  apply (guarded_recordBits own second hdata).bind
  intro bits hbits
  apply (guarded_recordKind own _ hbits.1).bind
  intro kind _
  have href : Guarded size low (readRef header own) fun target =>
      own < target ∧ target < header.cells := by
    apply (guarded_readCellNumber hs _ _).bind
    intro target ht
    apply Guarded.after_ensure
    intro hlt
    exact .pure ⟨of_decide_eq_true hlt, ht⟩
  apply (href.many _).bind
  rintro targets ⟨hl, htargets⟩
  refine .pure ⟨?_, ?_, ?_, htargets⟩
  -- the second descriptor is a byte, and where it is odd the tag takes up a bit of the data
  · change bits ≤ 1023
    omega
  · rw [hl]
    exact of_decide_eq_true hrefs
  · change (bits + 7) / 8 ≤ data.length
    omega

omit hs in
theorem guarded_checkEntry {index : Option (List Nat)} {cells own : Nat}
    (hindex : ∀ entries, index = some entries → entries.length = cells) (hown : own < cells)
    (offset : Nat) : Guarded size low (checkEntry index own offset) fun _ => True := by
  unfold checkEntry
  cases index with
  | none => exact .pure trivial
  | some entries =>
    have hlt : own < entries.length := hindex entries rfl ▸ hown
    apply (guarded_ofExcept_of_ok (Checked.item_eq_ok hlt)).bind
    intro entry _
    exact (guarded_ensure _ _).mono fun _ _ => trivial

/-- **All records** are read safely and keep within the bag. -/
theorem guarded_readRecordsFrom {header : Header} {index : Option (List Nat)}
    (hindex : ∀ entries, index = some entries → entries.length = header.cells) {count own : Nat}
    (hcount : own + count = header.cells) :
    Guarded size low (readRecordsFrom header index low count own)
      (Forward header.cells own) := by
  induction count generalizing own with
  | zero =>
    -- no record is left to read, and `own` has come to the count of the cells
    apply (guarded_since le_rfl).bind
    intro _ _
    apply Guarded.after_ensure
    intro _
    exact .pure hcount
  | succ count ih =>
    apply (guarded_readRecord hs header own).bind
    intro record hrecord
    apply (guarded_since le_rfl).bind
    intro offset _
    apply Guarded.after_ensure
    intro _
    apply (guarded_checkEntry hindex (by omega) offset).bind
    intro _ _
    apply (ih (by omega)).bind
    intro records hrecords
    exact .pure ⟨hrecord, hrecords⟩

theorem guarded_readCrc (config : Config) (header : Header) {data : Bytes}
    (hd : data.length = size) : Guarded size low (readCrc config header data) fun _ => True := by
  unfold readCrc
  split
  · apply (guarded_since (Nat.zero_le low)).bind
    intro position hposition
    apply (guarded_bytes hs 4).bind
    intro _ _
    split
    · rw [Checked.slice_eq_ok (by omega), ofExcept_ok, pure_bind]
      exact (guarded_ensure _ _).mono fun _ _ => trivial
    · exact .pure trivial
  · exact .pure trivial

/-- **The reader** of a bag is guarded; roots and references are cells of the bag. -/
theorem guarded_readBag (config : Config) {data : Bytes} (hd : data.length = size) :
    Guarded size low (readBag config data) fun (header, records) =>
      (∀ root ∈ header.roots, root < header.cells) ∧ Forward header.cells 0 records := by
  apply (guarded_readHeader hs config).bind
  intro header hheader
  apply (guarded_readIndex hs header).bind
  intro index hindex
  apply Guarded.from_here
  intro start
  apply guarded_bytesLeft.bind
  intro available _
  apply Guarded.after_ensure
  intro _
  apply (guarded_readRecordsFrom hs hindex (Nat.zero_add _)).bind
  intro records hrecords
  apply (guarded_readCrc hs config header hd).bind
  intro _ _
  apply guarded_bytesLeft.bind
  intro _ _
  apply Guarded.after_ensure
  intro _
  exact .pure ⟨hheader, hrecords⟩

end

/-! ## Cells from records -/

section

variable {config : Config} {cells own : Nat} {record : Record} {records : List Record}
  {later : List Cell}

theorem Forward.length_eq (h : Forward cells own records) : own + records.length = cells := by
  induction records generalizing own with
  | nil => exact h
  | cons record records ih =>
    have := ih h.2
    rw [List.length_cons]
    omega

theorem Forward.split {earlier rest : List Record}
    (h : Forward cells own (earlier ++ record :: rest)) :
    Readable cells (own + earlier.length) record ∧
      own + earlier.length + 1 + rest.length = cells := by
  induction earlier generalizing own with
  | nil => exact ⟨h.1, h.2.length_eq⟩
  | cons first earlier ih =>
    have := ih h.2
    rw [List.length_cons, ← Nat.add_assoc, Nat.add_right_comm]
    exact this

theorem assemble_cons :
    assemble config own (record :: records) =
      (assemble config (own + 1) records >>= fun later =>
        recordCell config own record later >>= fun cell => .ok (cell :: later)) :=
  rfl

theorem length_assemble {built : List Cell} (h : assemble config own records = .ok built) :
    built.length = records.length := by
  induction records generalizing own built with
  | nil =>
    cases h
    rfl
  | cons record records ih =>
    simp only [assemble_cons, bind_eq_ok_iff, Except.ok.injEq] at h
    obtain ⟨later, hlater, cell, -, rfl⟩ := h
    rw [List.length_cons, ih hlater, List.length_cons]

/-- Making the cells fails where it fails for one record, the later ones having been made. -/
theorem assemble_eq_error_iff {e : CellError} :
    assemble config own records = .error e ↔ ∃ earlier record rest later,
      records = earlier ++ record :: rest ∧
      assemble config (own + earlier.length + 1) rest = .ok later ∧
      recordCell config (own + earlier.length) record later = .error e := by
  induction records generalizing own with
  | nil => simp [assemble]
  | cons record records ih =>
    simp only [assemble_cons, bind_eq_error_iff, reduceCtorEq, and_false, exists_false, or_false,
      ih]
    have hlen (earlier : List Record) :
        own + (record :: earlier).length = own + 1 + earlier.length := by
      rw [List.length_cons]
      omega
    constructor
    · rintro (⟨earlier, first, rest, later, rfl, hl, hr⟩ | ⟨later, hl, hr⟩)
      · refine ⟨record :: earlier, first, rest, later, rfl, ?_⟩
        rw [hlen]
        exact ⟨hl, hr⟩
      · exact ⟨[], record, records, later, rfl, hl, hr⟩
    · rintro ⟨earlier, first, rest, later, he, hl, hr⟩
      cases earlier with
      | nil =>
        cases he
        exact .inr ⟨later, hl, hr⟩
      | cons _ earlier =>
        cases he
        rw [hlen] at hl hr
        exact .inl ⟨earlier, first, rest, later, rfl, hl, hr⟩

/-- The cells a record refers to are there. -/
theorem exists_refs (hr : Readable cells own record) (hl : own + 1 + later.length = cells) :
    ∃ refs, record.refs.mapM (laterCell later own) = .ok refs := by
  cases h : record.refs.mapM (laterCell later own) with
  | ok refs => exact ⟨refs, rfl⟩
  | error e =>
    -- the numbers lie behind that of the record, and there is a cell for each
    obtain ⟨target, ht, he⟩ := mapM_eq_error h
    have hb := hr.refs target ht
    rw [laterCell, if_neg (by omega), Checked.item_eq_ok (by omega)] at he
    cases he

/-- The last two tests of a record are refusals, or its cell is shared. -/
theorem recordCell_of_ofBytes (config : Config) {refs : List Cell} {cell : Cell}
    (hrefs : record.refs.mapM (laterCell later own) = .ok refs)
    (hcell : Cell.ofBytes record.kind record.data record.bits refs = .ok cell) :
    recordCell config own record later = .ok (share later cell) ∨
      ∃ fault, recordCell config own record later = .error (.bag fault) := by
  unfold recordCell
  simp only [hrefs, hcell, bind, Except.bind]
  split
  · exact .inr ⟨_, rfl⟩
  · split
    · exact .inr ⟨_, rfl⟩
    · exact .inl rfl

theorem recordCell_of_error {refs : List Cell} {e : CellError}
    (hrefs : record.refs.mapM (laterCell later own) = .ok refs)
    (hcell : Cell.ofBytes record.kind record.data record.bits refs = .error e) :
    recordCell config own record later = .error e := by
  unfold recordCell
  simp only [hrefs, hcell, bind, Except.bind]

/-- **A record has no cell and is not refused** only where some depth leaves two bytes. -/
theorem recordCell_eq_error_iff {e : CellError} (he : e.isRefusal = false)
    (hr : Readable cells own record) (hl : own + 1 + later.length = cells) :
    recordCell config own record later = .error e ↔
      ∃ refs mask, record.refs.mapM (laterCell later own) = .ok refs ∧
        Layout.mask record.kind ((Bits.ofBytes record.data).take record.bits) refs = .ok mask ∧
        Overdeep record.kind mask refs ∧ e = .overflow := by
  obtain ⟨refs, hrefs⟩ := exists_refs hr hl
  have hlen : refs.length ≤ Cell.maxRefs :=
    (mapM_eq_ok_iff.mp hrefs).length_eq ▸ hr.refs_le
  have hmake := ofBytes_eq_error_iff record.kind record.data record.bits refs he
  constructor
  · intro h
    have hof : Cell.ofBytes record.kind record.data record.bits refs = .error e := by
      cases hcell : Cell.ofBytes record.kind record.data record.bits refs with
      | error e' =>
        rw [recordCell_of_error hrefs hcell] at h
        exact h
      | ok cell =>
        rcases recordCell_of_ofBytes config hrefs hcell with hok | ⟨fault, hf⟩
        · rw [hok] at h
          cases h
        · rw [hf] at h
          cases h
          cases he
    obtain ⟨-, -, -, ⟨mask, hm, ho⟩, heq⟩ := hmake.mp hof
    exact ⟨refs, mask, hrefs, hm, ho, heq⟩
  · rintro ⟨refs', mask, hrefs', hm, ho, heq⟩
    rw [hrefs] at hrefs'
    cases hrefs'
    exact recordCell_of_error hrefs (hmake.mpr ⟨hr.bits_le, hlen, hr.data_le, ⟨mask, hm, ho⟩, heq⟩)

/-! ## Made cells -/

theorem mem_of_laterCell {target : Nat} {cell : Cell} (h : laterCell later own target = .ok cell) :
    cell ∈ later := by
  unfold laterCell at h
  split at h
  · cases h
  · exact List.mem_of_getElem? (Checked.item_eq_ok_iff.mp h)

theorem made_share {cell : Cell} (hl : ∀ x ∈ later, Made x) (hc : Made cell) :
    Made (share later cell) := by
  unfold share
  cases h : later.find? (· == cell) with
  | none => exact hc
  | some x => exact hl x (List.mem_of_find?_eq_some h)

theorem made_recordCell {cell : Cell} (hl : ∀ x ∈ later, Made x)
    (h : recordCell config own record later = .ok cell) : Made cell := by
  cases hrefs : record.refs.mapM (laterCell later own) with
  | error e =>
    unfold recordCell at h
    simp only [hrefs, bind, Except.bind] at h
    cases h
  | ok refs =>
    cases hof : Cell.ofBytes record.kind record.data record.bits refs with
    | error e =>
      rw [recordCell_of_error hrefs hof] at h
      cases h
    | ok made =>
      rcases recordCell_of_ofBytes config hrefs hof with hok | ⟨fault, hf⟩
      · rw [hok] at h
        cases h
        apply made_share hl
        refine .ofBytes ?_ hof
        intro ref href
        obtain ⟨target, -, ht⟩ := exists_of_mem_mapM hrefs href
        exact hl ref (mem_of_laterCell ht)
      · rw [hf] at h
        cases h

/-- **The cells** of a bag are made. -/
theorem made_assemble {built : List Cell} (h : assemble config own records = .ok built) :
    ∀ cell ∈ built, Made cell := by
  induction records generalizing own built with
  | nil =>
    cases h
    simp
  | cons record records ih =>
    simp only [assemble_cons, bind_eq_ok_iff, Except.ok.injEq] at h
    obtain ⟨later, hlater, cell, hcell, rfl⟩ := h
    have hl := ih hlater
    simpa using ⟨made_recordCell hl hcell, hl⟩

end

/-! ## The decoder -/

/-- Some record, the later ones having been made, suits its kind but lies above a child so deep that
the depth of its cell leaves two bytes. -/
def DeepRecord (config : Config) (records : List Record) : Prop :=
  ∃ earlier record rest later refs mask, records = earlier ++ record :: rest ∧
    assemble config (earlier.length + 1) rest = .ok later ∧
    record.refs.mapM (laterCell later earlier.length) = .ok refs ∧
    Layout.mask record.kind ((Bits.ofBytes record.data).take record.bits) refs = .ok mask ∧
    Overdeep record.kind mask refs

/-- Making the cells of readable records, when they are not refused. -/
theorem assemble_eq_failure_iff {config : Config} {cells : Nat} {records : List Record}
    (h : Forward cells 0 records) {e : CellError} (he : e.isRefusal = false) :
    assemble config 0 records = .error e ↔ DeepRecord config records ∧ e = .overflow := by
  rw [assemble_eq_error_iff]
  constructor
  · rintro ⟨earlier, record, rest, later, rfl, hl, hr⟩
    obtain ⟨hread, hlen⟩ := h.split
    rw [← length_assemble hl] at hlen
    obtain ⟨refs, mask, hrefs, hm, ho, heq⟩ := (recordCell_eq_error_iff he hread hlen).mp hr
    rw [Nat.zero_add] at hl hrefs
    exact ⟨⟨earlier, record, rest, later, refs, mask, rfl, hl, hrefs, hm, ho⟩, heq⟩
  · rintro ⟨⟨earlier, record, rest, later, refs, mask, rfl, hl, hrefs, hm, ho⟩, heq⟩
    obtain ⟨hread, hlen⟩ := h.split
    rw [← Nat.zero_add earlier.length] at hl hrefs
    rw [← length_assemble hl] at hlen
    exact ⟨earlier, record, rest, later, rfl, hl,
      (recordCell_eq_error_iff he hread hlen).mpr ⟨refs, mask, hrefs, hm, ho, heq⟩⟩

/-- What a decoder does with a bag that was read. -/
theorem decode_of_readBag {config : Config} {data : Bytes} {header : Header}
    {records : List Record} {after : Input}
    (h : readBag config data ⟨data, 0⟩ = .ok (header, records) after) :
    decode config data =
      (assemble config 0 records >>= fun cells => header.roots.mapM (Checked.item cells)) := by
  unfold decode
  rw [h]

/-- A decoder gives cells, refuses, or comes upon a record that is too deep. -/
theorem decode_eq_failure_iff {config : Config} {data : Bytes}
    (memory : data.length < Bits.bound 64) {e : CellError} (he : e.isRefusal = false) :
    decode config data = .error e ↔ (∃ header records after,
      readBag config data ⟨data, 0⟩ = .ok (header, records) after ∧ DeepRecord config records) ∧
        e = .overflow := by
  have hguarded : Guarded data.length 0 (readBag config data) _ := guarded_readBag memory config rfl
  have hguard := hguarded ⟨data, 0⟩ (Nat.zero_add _) le_rfl
  cases hread : readBag config data ⟨data, 0⟩ with
  | error e' after =>
    -- a guarded reader fails with refusals only
    rw [hread] at hguard
    have hd : decode config data = .error e' := by
      unfold decode
      rw [hread]
    rw [hd]
    simp only [Except.error.injEq, reduceCtorEq, false_and, exists_false, iff_false]
    rintro rfl
    exact absurd (he.symm.trans hguard) (by simp)
  | ok result after =>
    obtain ⟨header, records⟩ := result
    rw [hread] at hguard
    obtain ⟨-, -, hroots, hforward⟩ := hguard
    -- every root is a number of a record, so its cell is there
    have hitems {built : List Cell} (hb : assemble config 0 records = .ok built) :
        ¬ header.roots.mapM (Checked.item built) = .error e := by
      intro h
      obtain ⟨root, hroot, hi⟩ := mapM_eq_error h
      have hlt := hroots root hroot
      rw [← hforward.length_eq, Nat.zero_add, ← length_assemble hb] at hlt
      rw [Checked.item_eq_ok hlt] at hi
      cases hi
    rw [decode_of_readBag hread, bind_eq_error_iff, assemble_eq_failure_iff hforward he]
    constructor
    · rintro (⟨hdeep, rfl⟩ | ⟨built, hb, h⟩)
      · exact ⟨⟨header, records, after, rfl, hdeep⟩, rfl⟩
      · exact absurd h (hitems hb)
    · rintro ⟨⟨header', records', after', h, hdeep⟩, rfl⟩
      cases h
      exact .inl ⟨hdeep, rfl⟩

/-- **Decoded cells** are made. -/
theorem made_decode {config : Config} {data : Bytes} {roots : List Cell}
    (h : decode config data = .ok roots) : ∀ root ∈ roots, Made root := by
  cases hread : readBag config data ⟨data, 0⟩ with
  | error e after =>
    unfold decode at h
    rw [hread] at h
    cases h
  | ok result after =>
    rw [decode_of_readBag hread, bind_eq_ok_iff] at h
    obtain ⟨built, hb, hr⟩ := h
    intro root hroot
    obtain ⟨number, -, hi⟩ := exists_of_mem_mapM hr hroot
    exact made_assemble hb root (List.mem_of_getElem? (Checked.item_eq_ok_iff.mp hi))

/-- **Every byte string** that memory can hold is decoded without looking outside it, and is given
an answer unless some record puts a cell above a child whose depth takes up two bytes. In the cells
that come out the depths are what they should be: none without references, otherwise one more than
that of the deepest child, read at the level of the children. -/
theorem decode_safe (config : Config) (data : Bytes) (memory : data.length < Bits.bound 64) :
    decode config data ≠ .error .outOfBounds ∧
    (decode config data = .error .overflow ↔ ∃ header records after,
      readBag config data ⟨data, 0⟩ = .ok (header, records) after ∧ DeepRecord config records) ∧
    ∀ roots, decode config data = .ok roots → ∀ cell ∈ reachable roots, ∀ level,
      cell.depthAt level ≤ maxDepth ∧
      (cell.kind ≠ .prunedBranch → cell.refs = [] → cell.depthAt level = 0) ∧
      (cell.kind ≠ .prunedBranch → cell.refs ≠ [] → cell.mask.isSignificant level = true →
        cell.depthAt level =
          1 + (cell.refs.map (·.depthAt (childLevel cell.kind level))).foldr max 0) := by
  refine ⟨?_, ?_, ?_⟩
  · intro h
    cases ((decode_eq_failure_iff memory rfl).mp h).2
  · rw [decode_eq_failure_iff memory rfl, and_iff_left rfl]
  · intro roots h cell hcell level
    have hs := (made_of_reachable (made_decode h) hcell).sound
    refine ⟨hs.depthAt_le level, ?_, ?_⟩
    · intro hk hr
      rw [hs.depthAt_eq hk, depthOver, if_pos hr]
    · intro hk hr hsig
      rw [hs.depthAt_eq hk, depthOver, if_neg hr, LevelMask.floor_of_isSignificant hsig]

/-- A root above a pruned branch that stores the depth 65535. -/
def deepBag : Bytes :=
  [0xb5, 0xee, 0x9c, 0x72, 1, 1, 2, 1, 0, 41, 0, 0x21, 0, 1, 0x28, 72, 1, 1] ++
    List.replicate 32 0 ++ [0xff, 0xff]

/-- Nothing bounds the stored depth, so there is no answer. -/
theorem decode_deepBag : decode {} deepBag = .error .overflow := by
  have h : (match decode {} deepBag with
      | .error e => some e
      | .ok _ => none) = some .overflow := by decide +kernel
  cases hd : decode {} deepBag with
  | error e =>
    rw [hd] at h
    exact congrArg _ (Option.some.inj h)
  | ok roots =>
    rw [hd] at h
    cases h

/-- The record at fault is there. -/
theorem decode_safe_deepBag :
    decode {} deepBag ≠ .error .outOfBounds ∧ ∃ header records after,
      readBag {} deepBag ⟨deepBag, 0⟩ = .ok (header, records) after ∧ DeepRecord {} records := by
  have h := decode_safe {} deepBag (by decide)
  exact ⟨h.1, h.2.1.mp decode_deepBag⟩

end BagOfCells.Bag
