import BagOfCells.Proofs.Bag.Parsing
import BagOfCells.Proofs.Bag.Source
import BagOfCells.Proofs.Bag.Written

/-!
# What the reader of a bag accepts

Each part of a bag is read exactly where it is printed from what it says: the form of the header,
its fields, the index, the records and the checksum. The reader tests some things twice, such as the
room for the records and the order of the index, and what is printed passes these tests too. So a
bag is read exactly if it is the print of something legal.

## Main results

* `Bag.preamble_eq_ok_iff`: the magic number and the byte behind it
* `Bag.parses_readHeader`, `Bag.parses_readIndex`, `Bag.parses_readRecord`,
  `Bag.parses_readRecordsFrom`, `Bag.parses_readCrc`: the parts of a bag
* `Bag.legal_of_readBag`, `Bag.readBag_of_legal`: the whole bag
-/

namespace BagOfCells.Bag

open Cell Outcome

variable {size position : Nat}

/-! ## The header -/

/-- A byte without the two reserved bits is made of its size and its flags. -/
theorem flags_eq {byte : Nat} (h : byte < 256) (h₃ : byte.testBit 3 = false)
    (h₄ : byte.testBit 4 = false) :
    byte = byte % 8 + 32 * (byte.testBit 5).toNat + 64 * (byte.testBit 6).toNat +
      128 * (byte.testBit 7).toNat := by
  revert byte
  decide +kernel

theorem Preamble.magicNumber_lt (form : Preamble) : form.magicNumber < 256 ^ 4 := by
  unfold magicNumber
  split
  · split <;> decide
  · decide

theorem Preamble.Legal.flags_lt {form : Preamble} (h : form.Legal) : form.flags < 256 := by
  have hsize := h.refSize
  have hcache := form.hasCacheBits.toNat_le
  have hcrc := form.hasCrc.toNat_le
  have hindex := form.hasIndex.toNat_le
  unfold flags
  split <;> omega

theorem preamble_of_flags {form : Preamble} (h : form.Legal) :
    preamble form.magicNumber form.flags = .ok form := by
  obtain ⟨legacy, hasIndex, hasCrc, hasCacheBits, refSize⟩ := form
  obtain ⟨⟨h₁, h₄⟩, -, hlegacy⟩ := h
  cases legacy with
  | true =>
    obtain ⟨rfl, rfl⟩ := hlegacy rfl
    cases hasCrc <;> rfl
  | false =>
    change 1 ≤ refSize at h₁
    change refSize ≤ 4 at h₄
    interval_cases refSize <;> cases hasIndex <;> cases hasCrc <;> cases hasCacheBits <;> rfl

/-- **The magic number and the byte behind it** are those of a form. -/
theorem preamble_eq_ok_iff {magicNumber byte : Nat} (hbyte : byte < 256) {form : Preamble} :
    preamble magicNumber byte = .ok form ∧ (form.hasIndex || !form.hasCacheBits) = true ∧
        (1 ≤ form.refSize && form.refSize ≤ 4) = true ↔
      form.Legal ∧ magicNumber = form.magicNumber ∧ byte = form.flags := by
  constructor
  · rintro ⟨h, hcache, hsize⟩
    simp only [Bool.and_eq_true, decide_eq_true_eq] at hsize
    unfold preamble at h
    split at h
    · next hm =>
      split at h
      · cases h
      · next hreserved =>
        cases h
        simp only [Bool.or_eq_true, not_or, Bool.not_eq_true] at hreserved
        refine ⟨⟨hsize, ?_, nofun⟩, hm, flags_eq hbyte hreserved.1 hreserved.2⟩
        intro (hc : byte.testBit 5 = true)
        simpa [hc] using hcache
    · split at h
      · next hm =>
        cases h
        exact ⟨⟨hsize, nofun, fun _ => ⟨rfl, rfl⟩⟩, hm, rfl⟩
      · split at h
        · next hm =>
          cases h
          exact ⟨⟨hsize, nofun, fun _ => ⟨rfl, rfl⟩⟩, hm, rfl⟩
        · cases h
  · rintro ⟨h, rfl, rfl⟩
    refine ⟨preamble_of_flags h, ?_, by simpa using h.refSize⟩
    cases hc : form.hasCacheBits with
    | false => simp
    | true => simp [h.cache hc]

theorem parses_readPreamble :
    Parses size position readPreamble fun bytes form => bytes = form.bytes ∧ form.Legal := by
  refine Parses.congr ((parses_nat 4).bind_printed fun m _ =>
    (parses_nat 1).bind_printed fun byte _ => Parses.after_ofExcept fun form _ =>
      Parses.after_ensure fun _ => Parses.after_ensure fun _ => parses_pure form)
    fun bytes form _ => ?_
  constructor
  · rintro ⟨m, _, rfl, -, byte, _, rfl, hbyte, _, hform, hcache, hsize, rfl, rfl⟩
    obtain ⟨hlegal, rfl, rfl⟩ := (preamble_eq_ok_iff hbyte).mp ⟨hform, hcache, hsize⟩
    exact ⟨by rw [List.append_nil, Preamble.bytes], hlegal⟩
  · rintro ⟨rfl, h⟩
    obtain ⟨hform, hcache, hsize⟩ := (preamble_eq_ok_iff h.flags_lt).mpr ⟨h, rfl, rfl⟩
    exact ⟨_, _, rfl, form.magicNumber_lt, _, [], (List.append_nil _).symm, h.flags_lt, form, hform,
      hcache, hsize, rfl, rfl⟩

/-- The counts fit each other, and none is absent. -/
theorem parses_checkCounts (config : Config) (legacy : Bool) {cells roots absent : Nat}
    (hcells : cells < Bits.bound 64) :
    Parses size position (checkCounts config legacy cells roots absent) fun bytes _ =>
      bytes = [] ∧ absent = 0 ∧ 1 ≤ cells ∧ cells ≤ config.maxCells ∧ 1 ≤ roots ∧
        roots ≤ config.maxRoots ∧ roots ≤ cells ∧ (legacy = true → roots = 1) := by
  refine (Parses.after_ensure fun _ => Parses.after_ensure fun _ => Parses.after_ensure fun _ =>
    Parses.after_ensure fun _ => Parses.after_ensure fun _ => Parses.after_ofExcept fun _ _ =>
    Parses.after_ensure fun _ => parses_ensure _ _).congr fun bytes _ _ => ?_
  simp only [decide_eq_true_eq, beq_iff_eq, Bool.or_eq_true, Bool.not_eq_true', Checked.word]
  constructor
  · rintro ⟨h₀, hc, h₁, hr, hl, listed, hlisted, hle, rfl, rfl⟩
    split at hlisted <;> cases hlisted
    refine ⟨rfl, rfl, by omega, hc, by omega, hr, hle, ?_⟩
    rintro rfl
    simpa using hl
  · rintro ⟨rfl, rfl, h₀, hc, h₁, hr, hle, hl⟩
    refine ⟨by omega, hc, by omega, hr, ?_, roots, if_pos (by omega), hle, rfl, rfl⟩
    cases legacy with
    | false => exact .inl rfl
    | true => exact .inr (hl rfl)

theorem parses_readCellNumber {refSize count : Nat} (hc : count < 256 ^ refSize) :
    Parses size position (readCellNumber refSize count) fun bytes n =>
      bytes = Bytes.ofNat refSize n ∧ n < count := by
  have hnext (n : Nat) : Parses size (position + (Bytes.ofNat refSize n).length)
      (if n ≥ count then throw (.referenceOutOfRange n count) else pure n : Read Nat)
      fun bytes m => (bytes = [] ∧ m = n) ∧ n < count := by
    split
    · next h => exact (parses_throw _).congr fun _ _ _ => by simp [Nat.not_lt.mpr h]
    · next h => exact (parses_pure n).congr fun _ _ _ => by simp [Nat.lt_of_not_ge h]
  refine Parses.congr ((parses_nat refSize).bind_printed fun n _ => hnext n)
    fun bytes n _ => ?_
  constructor
  · rintro ⟨n, _, rfl, -, ⟨rfl, rfl⟩, hn⟩
    exact ⟨List.append_nil _, hn⟩
  · rintro ⟨rfl, hn⟩
    exact ⟨n, [], (List.append_nil _).symm, hn.trans hc, ⟨rfl, rfl⟩, hn⟩

/-- **The header** is printed from what it says. -/
theorem parses_readHeader (config : Config) :
    Parses size position (readHeader config) fun bytes header =>
      bytes = header.bytes ∧ header.Legal config ∧ 2 * header.cells ≤ header.total := by
  refine Parses.congr ((parses_readPreamble).bind_printed fun form hform =>
    (parses_nat 1).bind_printed fun offsetSize _ => Parses.after_ensure fun hsize =>
    (parses_nat _).bind_printed fun cells hcells =>
    (parses_nat _).bind_printed fun roots _ =>
    (parses_nat _).bind_printed fun absent _ =>
    (parses_checkCounts config form.legacy ?_).bind_printed fun _ hcounts =>
    (parses_nat _).bind_printed fun total _ => Parses.after_ensure fun _ =>
    Parses.ite (fun _ => parses_pure _) (fun _ =>
      (Parses.many (fun _ => parses_readCellNumber hcells) _).bind_printed fun numbers _ =>
        parses_pure _)) fun bytes header _ => ?_
  · -- a count takes at most four bytes
    calc cells < 256 ^ form.refSize := hcells
      _ ≤ 256 ^ 4 := Nat.pow_le_pow_right (by decide) hform.refSize.2
      _ < Bits.bound 64 := by decide
  constructor
  · rintro ⟨form, _, rfl, hform, offsetSize, _, rfl, -, hsize, cells, _, rfl, hcells, roots, _, rfl,
      -, absent, _, rfl, -, _, _, rfl, ⟨rfl, h₀, hmax, h₁, hr, hle, hl⟩, total, _, rfl, htotal,
      htwo, hnumbers⟩
    simp only [Bool.and_eq_true, decide_eq_true_eq] at hsize htwo
    split at hnumbers
    · next hlegacy =>
      obtain ⟨rfl, rfl⟩ := hnumbers
      obtain rfl := hl hlegacy
      refine ⟨?_, ⟨hform, hsize, h₀, hcells, hmax, h₁, hr, hle, ?_, fun _ => rfl, htotal⟩, htwo⟩
      · simp [Header.bytes, hlegacy]
      · exact List.forall_mem_singleton.mpr h₀
    · next hlegacy =>
      obtain ⟨numbers, _, rfl, ⟨rfl, hnumbers⟩, rfl, rfl⟩ := hnumbers
      refine ⟨?_, ⟨hform, hsize, h₀, hcells, hmax, h₁, hr, hle, hnumbers,
        fun h => absurd h hlegacy, htotal⟩, htwo⟩
      simp [Header.bytes, hlegacy]
  · rintro ⟨rfl, h, htwo⟩
    have hroots : header.roots.length < 256 ^ header.refSize :=
      Nat.lt_of_le_of_lt h.roots_le_cells h.cells_lt
    refine ⟨header.toPreamble, _, by simp only [Header.bytes, List.append_assoc]; rfl, h.form,
      header.offsetSize, _, rfl, by have := h.offsetSize; omega, by simpa using h.offsetSize,
      header.cells, _, rfl, h.cells_lt, header.roots.length, _, rfl, hroots, 0, _, rfl,
      Nat.pow_pos (by decide), (), _, rfl, ⟨rfl, h.cells_pos, h.cells_le, h.roots_pos, h.roots_le,
      h.roots_le_cells, ?_⟩, header.total, _, rfl, h.total_lt, decide_eq_true htwo, ?_⟩
    · intro hlegacy
      rw [h.root hlegacy]
      rfl
    · split
      · next hlegacy =>
        refine ⟨rfl, ?_⟩
        rw [← h.root hlegacy]
      · exact ⟨header.roots, [], (List.append_nil _).symm, ⟨rfl, h.roots_lt⟩, rfl, rfl⟩

/-! ## The index -/

/-- Offsets that ascend from `previous` to `total`. -/
def Ascends (total previous : Nat) : List Nat → Prop
  | [] => previous = total
  | offset :: offsets => previous ≤ offset ∧ offset ≤ total ∧ Ascends total offset offsets

theorem parses_readEntries (header : Header) (count previous : Nat) :
    Parses size position (readEntries header count previous) fun bytes offsets =>
      Ascends header.total previous offsets ∧ ∃ entries : List Nat,
        bytes = (entries.map (Bytes.ofNat header.offsetSize)).flatten ∧ entries.length = count ∧
        (∀ entry ∈ entries, entry < 256 ^ header.offsetSize) ∧
        offsets = entries.map header.offset := by
  induction count generalizing position previous with
  | zero =>
    refine Parses.congr (Parses.after_ensure fun _ => parses_pure _) fun bytes offsets _ => ?_
    rw [beq_iff_eq]
    constructor
    · rintro ⟨h, rfl, rfl⟩
      exact ⟨h, [], rfl, rfl, by simp, rfl⟩
    · rintro ⟨h, entries, rfl, hl, -, rfl⟩
      obtain rfl := List.length_eq_zero_iff.mp hl
      exact ⟨h, rfl, rfl⟩
  | succ count ih =>
    refine Parses.congr ((parses_nat _).bind_printed fun entry _ => Parses.after_ensure fun _ =>
      (ih _).bind fun _ offsets _ => parses_pure _) fun bytes offsets _ => ?_
    simp only [Bool.and_eq_true, decide_eq_true_eq]
    constructor
    · rintro ⟨entry, _, rfl, hentry, ⟨hle, hle'⟩, _, offsets, _, rfl,
        ⟨hasc, entries, rfl, hl, hentries, rfl⟩, rfl, rfl⟩
      exact ⟨⟨hle, hle', hasc⟩, entry :: entries, by simp, by rw [List.length_cons, hl],
        List.forall_mem_cons.mpr ⟨hentry, hentries⟩, rfl⟩
    · rintro ⟨hasc, entries, rfl, hl, hentries, rfl⟩
      obtain ⟨entry, entries, rfl⟩ := List.exists_cons_of_length_eq_add_one hl
      obtain ⟨hentry, hentries⟩ := List.forall_mem_cons.mp hentries
      exact ⟨entry, _, rfl, hentry, ⟨hasc.1, hasc.2.1⟩, _, _, [], (List.append_nil _).symm,
        ⟨hasc.2.2, entries, rfl, Nat.succ.inj hl, hentries, rfl⟩, rfl, rfl⟩

/-- The ends of records that fill the total size ascend to it. -/
theorem ascends_ends {total previous : Nat} {records : List Bytes}
    (h : previous + records.flatten.length = total) :
    Ascends total previous (ends previous records) := by
  induction records generalizing previous with
  | nil => exact h
  | cons record records ih =>
    rw [List.flatten_cons, List.length_append] at h
    exact ⟨Nat.le_add_right .., by omega, ih (by omega)⟩

theorem le_of_mem_ends {total previous : Nat} {records : List Bytes}
    (h : previous + records.flatten.length = total) {offset : Nat}
    (ho : offset ∈ ends previous records) : offset ≤ total := by
  induction records generalizing previous with
  | nil => cases ho
  | cons record records ih =>
    rw [List.flatten_cons, List.length_append] at h
    rcases List.mem_cons.mp ho with rfl | ho
    · omega
    · exact ih (by omega) ho

/-- **The index** is printed from its entries, which stand for ascending offsets. -/
theorem parses_readIndex (header : Header) :
    Parses size position (readIndex header) fun bytes index => ∃ entries : List Nat,
      bytes = (entries.map (Bytes.ofNat header.offsetSize)).flatten ∧
      (∀ entry ∈ entries, entry < 256 ^ header.offsetSize) ∧
      if header.hasIndex then
        index = some (entries.map header.offset) ∧ entries.length = header.cells ∧
          Ascends header.total 0 (entries.map header.offset)
      else index = none ∧ entries = [] := by
  refine Parses.congr (Parses.ite (fun _ => (parses_readEntries header _ _).bind
    fun _ _ _ => parses_pure _) (fun _ => parses_pure _)) fun bytes index _ => ?_
  split
  · constructor
    · rintro ⟨_, _, _, rfl, ⟨hasc, entries, rfl, hl, hlt, rfl⟩, rfl, rfl⟩
      exact ⟨entries, List.append_nil _, hlt, rfl, hl, hasc⟩
    · rintro ⟨entries, rfl, hlt, rfl, hl, hasc⟩
      exact ⟨_, _, [], (List.append_nil _).symm, ⟨hasc, entries, rfl, hl, hlt, rfl⟩, rfl, rfl⟩
  · constructor
    · rintro ⟨rfl, rfl⟩
      exact ⟨[], rfl, by simp, rfl, rfl⟩
    · rintro ⟨entries, rfl, -, rfl, rfl⟩
      exact ⟨rfl, rfl⟩

/-! ## Records -/

theorem minus_eq_ok_iff {a b n : Nat} : Checked.minus a b = .ok n ↔ n + b = a := by
  unfold Checked.minus
  split
  · rw [Except.ok.injEq]
    omega
  · simp only [reduceCtorEq, false_iff]
    omega

/-- The bits of a record, given the second descriptor. -/
theorem parses_recordBits (own : Nat) {descriptor : Nat} {data : Bytes}
    (hd : data.length = (descriptor + 1) / 2) :
    Parses size position (recordBits own descriptor data) fun bytes bits => bytes = [] ∧
      if descriptor % 2 = 0 then bits = 8 * data.length else Bits.Tagged data bits := by
  refine Parses.congr (Parses.ite (fun _ => parses_pure _) fun _ => Parses.after_ofExcept
    fun last _ => Parses.after_ensure fun _ => parses_ofExcept _) fun bytes bits _ => ?_
  split
  · rfl
  · next hodd =>
    -- an odd descriptor asks for at least one byte of data
    obtain ⟨front, last, rfl⟩ : ∃ front last, data = front ++ [last] := by
      rcases List.eq_nil_or_concat data with hn | hp
      · rw [hn, List.length_nil] at hd
        omega
      · simpa only [List.concat_eq_append] using hp
    have hitem : (Checked.minus (front ++ [last]).length 1 >>= Checked.item (front ++ [last])) =
        .ok last := by
      rw [Checked.minus_eq_ok (by simp)]
      exact Checked.item_eq_ok_iff.mpr (by simp)
    rw [Bits.tagged_iff, hitem]
    simp only [Except.ok.injEq, bne_iff_ne, minus_eq_ok_iff, exists_eq_left']
    tauto

/-- The kind of a record: that of its first byte. -/
theorem parses_recordKind (own : Nat) (exotic : Bool) (bits : Nat) (data : Bytes) :
    Parses size position (recordKind own exotic bits data) fun bytes kind => bytes = [] ∧
      kind.isExotic = exotic ∧ ∀ byte, kind.typeByte? = some byte →
        8 ≤ bits ∧ data.head? = some byte := by
  refine Parses.congr (Parses.ite (fun _ => parses_pure _) fun _ => Parses.after_ensure fun _ =>
    Parses.after_ofExcept fun byte _ => (?_ : Parses size position _ fun bytes (kind : CellKind) =>
      bytes = [] ∧ kind.typeByte? = some byte)) fun bytes kind _ => ?_
  · simp only [← CellKind.ofTypeByte?_eq_some_iff]
    split
    · next kind h => exact (parses_pure kind).congr fun _ _ _ => by simp [h, eq_comm]
    · next h => exact (parses_throw _).congr fun _ _ _ => by simp [h]
  simp only [Bool.not_eq_true', Checked.item_eq_ok_iff, decide_eq_true_eq, List.head?_eq_getElem?]
  split
  · next hordinary =>
    subst hordinary
    constructor
    · rintro ⟨rfl, rfl⟩
      exact ⟨rfl, rfl, nofun⟩
    · rintro ⟨rfl, hkind, -⟩
      cases kind <;> simp_all [CellKind.isExotic]
  · next hexotic =>
    rw [Bool.not_eq_false] at hexotic
    subst hexotic
    constructor
    · rintro ⟨h₈, byte, hbyte, rfl, hkind⟩
      refine ⟨rfl, ?_, ?_⟩
      · cases kind <;> simp_all [CellKind.isExotic, CellKind.typeByte?]
      · rintro byte' hbyte'
        rw [hkind] at hbyte'
        cases hbyte'
        exact ⟨h₈, hbyte⟩
    · rintro ⟨rfl, hkind, h⟩
      obtain ⟨byte, hbyte⟩ : ∃ byte, kind.typeByte? = some byte := by
        cases kind <;> simp_all [CellKind.isExotic, CellKind.typeByte?]
      obtain ⟨h₈, hhead⟩ := h byte hbyte
      exact ⟨h₈, byte, hhead, rfl, hbyte⟩

theorem parses_readRef {header : Header} (hc : header.cells < 256 ^ header.refSize) (own : Nat) :
    Parses size position (readRef header own) fun bytes target =>
      bytes = Bytes.ofNat header.refSize target ∧ own < target ∧ target < header.cells := by
  refine Parses.congr ((parses_readCellNumber hc).bind_printed fun target _ =>
    Parses.after_ensure fun _ => parses_pure target) fun bytes target _ => ?_
  simp only [decide_eq_true_eq]
  constructor
  · rintro ⟨target, _, rfl, hlt, hown, rfl, rfl⟩
    exact ⟨List.append_nil _, hown, hlt⟩
  · rintro ⟨rfl, hown, hlt⟩
    exact ⟨target, [], (List.append_nil _).symm, hlt, hown, rfl, rfl⟩

/-- A first descriptor without stored hashes is made of its count, its flag and its mask. -/
theorem refsDescriptor_eq {first : Nat} (h : first < 256) (h₄ : first.testBit 4 = false) :
    first % 8 + (if first.testBit 3 then 8 else 0) + 32 * (LevelMask.ofNat (first / 32)).toNat =
      first := by
  revert first
  decide +kernel

/-- **A record** is printed from what it says. -/
theorem parses_readRecord {header : Header} (hc : header.cells < 256 ^ header.refSize) (own : Nat) :
    Parses size position (readRecord header own) fun bytes record =>
      bytes = record.bytes header.refSize ∧ record.Legal header.cells own := by
  refine Parses.congr ((parses_nat 1).bind_printed fun first _ =>
    (parses_nat 1).bind_printed fun second _ => Parses.after_ensure fun _ =>
    Parses.after_ensure fun _ => (parses_bytes _).bind fun _ data hdata =>
    (parses_recordBits own (hdata.2 ▸ hdata.1)).bind_printed fun bits _ =>
    (parses_recordKind own _ bits data).bind_printed fun kind _ =>
    (Parses.many (fun _ => parses_readRef hc own) _).bind_printed fun targets _ =>
      parses_pure _) fun bytes record _ => ?_
  simp only [decide_eq_true_eq, Bool.not_eq_true']
  constructor
  · rintro ⟨first, _, rfl, hfirst, second, _, rfl, hsecond, hrefs, hhashes, _, data, _, rfl,
      ⟨hdata, rfl⟩, bits, _, rfl, hbits, kind, _, rfl, ⟨hkind, hbegins⟩, targets, _, rfl,
      ⟨hcount, htargets⟩, rfl, rfl⟩
    have hfirst' : refsDescriptor targets.length kind.isExotic (.ofNat (first / 32)) = first := by
      rw [refsDescriptor, hcount, hkind]
      exact refsDescriptor_eq hfirst hhashes
    have hsize : bits ≤ maxBits ∧ Record.sizeDescriptor
        ⟨kind, .ofNat (first / 32), data, bits, targets⟩ = second := by
      unfold Record.sizeDescriptor maxBits
      split at hbits
      · simp only [hbits, if_true]
        omega
      · have hl := hbits.length_bounds
        simp only [show bits ≠ 8 * data.length by omega, if_false]
        omega
    refine ⟨?_, hsize.1, ?_, hbegins, hcount.trans_le hrefs, htargets⟩
    · simp [Record.bytes, hfirst', hsize.2]
    · split at hbits
      · exact .inl hbits
      · exact .inr hbits
  · rintro ⟨rfl, h⟩
    obtain ⟨hrefs, hhashes, hexotic, hmask⟩ :=
      refsDescriptor_fields h.refs_le record.kind.isExotic record.mask
    have hbits := h.bits_le
    unfold maxBits at hbits
    have hsize : record.sizeDescriptor < 256 ∧
        record.data.length = (record.sizeDescriptor + 1) / 2 ∧
        if record.sizeDescriptor % 2 = 0 then record.bits = 8 * record.data.length
        else Bits.Tagged record.data record.bits := by
      unfold Record.sizeDescriptor
      rcases h.closed with hfull | htag
      · rw [if_pos hfull, if_pos (Nat.mul_mod_right ..)]
        exact ⟨by omega, by omega, hfull⟩
      · have hl := htag.length_bounds
        simp only [show record.bits ≠ 8 * record.data.length by omega, if_false,
          show (2 * record.data.length - 1) % 2 ≠ 0 by omega]
        exact ⟨by omega, by omega, htag⟩
    refine ⟨_, _, by simp only [Record.bytes, List.append_assoc]; rfl,
      refsDescriptor_lt h.refs_le _ _, record.sizeDescriptor, _, rfl, hsize.1, ?_, ?_,
      record.data, _, _, rfl, ⟨hsize.2.1, rfl⟩, record.bits, _, rfl, hsize.2.2, record.kind, _, rfl,
      ⟨hexotic.symm, h.begins⟩, record.refs, [], (List.append_nil _).symm, ⟨hrefs.symm, h.refs⟩,
      rfl, ?_⟩
    · exact hrefs.symm ▸ h.refs_le
    · exact hhashes
    · rw [hmask, LevelMask.ofNat_toNat]

theorem parses_checkEntry (index : Option (List Nat)) (own offset : Nat) :
    Parses size position (checkEntry index own offset) fun bytes _ =>
      bytes = [] ∧ ∀ entries, index = some entries → entries[own]? = some offset := by
  unfold checkEntry
  cases index with
  | none => exact (parses_pure ()).congr fun _ _ _ => by simp
  | some entries =>
    refine Parses.congr (Parses.after_ofExcept fun entry _ => parses_ensure _ _)
      fun bytes _ _ => ?_
    simp only [Checked.item_eq_ok_iff, beq_iff_eq, Option.some.injEq, forall_eq']
    constructor
    · rintro ⟨_, hentry, rfl, rfl⟩
      exact ⟨rfl, hentry⟩
    · rintro ⟨rfl, hentry⟩
      exact ⟨_, hentry, rfl, rfl⟩

/-- What holds of the items of a list at their places. -/
theorem forall_getElem?_cons {α : Type} {a : α} {as : List α} {p : Nat → α → Prop} :
    (∀ i x, (a :: as)[i]? = some x → p i x) ↔ p 0 a ∧ ∀ i x, as[i]? = some x → p (i + 1) x := by
  constructor
  · exact fun h => ⟨h 0 a rfl, fun i x hx => h (i + 1) x hx⟩
  · rintro ⟨h₀, h⟩ (_ | i) x hx
    · cases hx
      exact h₀
    · exact h i x hx

/-- **The records** are printed one behind the other; each keeps the format, and the index, if there
is one, has its end. -/
theorem parses_readRecordsFrom {header : Header} (hc : header.cells < 256 ^ header.refSize)
    (index : Option (List Nat)) {start : Nat} (hle : start ≤ position) (count own : Nat) :
    Parses size position (readRecordsFrom header index start count own) fun bytes records =>
      bytes = (records.map (Record.bytes header.refSize)).flatten ∧ records.length = count ∧
      position + bytes.length = start + header.total ∧
      (∀ i (record : Record), records[i]? = some record → record.Legal header.cells (own + i)) ∧
      ∀ entries, index = some entries → ∀ i offset,
        (ends (position - start) (records.map (Record.bytes header.refSize)))[i]? = some offset →
          entries[own + i]? = some offset := by
  induction count generalizing position own with
  | zero =>
    refine Parses.congr (Parses.after_since hle (Parses.after_ensure fun _ => parses_pure _))
      fun bytes records _ => ?_
    rw [beq_iff_eq]
    constructor
    · rintro ⟨htotal, rfl, rfl⟩
      exact ⟨rfl, rfl, by simp; omega, by simp, by simp [ends]⟩
    · rintro ⟨rfl, hl, htotal, -⟩
      obtain rfl := List.length_eq_zero_iff.mp hl
      simp only [List.map_nil, List.flatten_nil, List.length_nil] at htotal
      exact ⟨by omega, rfl, rfl⟩
  | succ count ih =>
    refine Parses.congr ((parses_readRecord hc own).bind_printed fun record _ =>
      Parses.after_since (by omega) (Parses.after_ensure fun _ =>
        (parses_checkEntry index own _).bind_printed fun _ _ =>
          (ih (by omega) (own + 1)).bind fun _ records _ => parses_pure _))
      fun bytes records _ => ?_
    have hshift (record : Record) :
        position + (record.bytes header.refSize).length - start =
          position - start + (record.bytes header.refSize).length := by omega
    simp only [decide_eq_true_eq, List.length_nil, Nat.add_zero, hshift]
    constructor
    · rintro ⟨record, _, rfl, hrecord, hinside, _, _, rfl, hentry, _, records, _, rfl,
        ⟨rfl, hl, htotal, hrecords, hindex⟩, rfl, rfl⟩
      refine ⟨by simp, by rw [List.length_cons, hl], ?_, ?_, ?_⟩
      · simp only [List.append_nil, List.length_append]
        omega
      · rw [forall_getElem?_cons]
        refine ⟨hrecord, fun i x hx => ?_⟩
        rw [← Nat.add_assoc, Nat.add_right_comm]
        exact hrecords i x hx
      · intro entries he
        rw [List.map_cons, ends, forall_getElem?_cons]
        refine ⟨hentry entries he, fun i x hx => ?_⟩
        rw [← Nat.add_assoc, Nat.add_right_comm]
        exact hindex entries he i x hx
    · rintro ⟨rfl, hl, htotal, hrecords, hindex⟩
      obtain ⟨record, records, rfl⟩ := List.exists_cons_of_length_eq_add_one hl
      obtain ⟨hrecord, hrecords⟩ := forall_getElem?_cons.mp hrecords
      simp only [List.map_cons, ends, forall_getElem?_cons, List.flatten_cons,
        List.length_append] at hindex htotal
      refine ⟨record, _, rfl, hrecord, by omega, (), _, rfl,
        fun entries he => (hindex entries he).1, _, records, [], (List.append_nil _).symm,
        ⟨rfl, Nat.succ.inj hl, by omega, ?_, ?_⟩, rfl, rfl⟩
      · intro i x hx
        have := hrecords i x hx
        rwa [← Nat.add_assoc, Nat.add_right_comm] at this
      · intro entries he i x hx
        have := (hindex entries he).2 i x hx
        rwa [← Nat.add_assoc, Nat.add_right_comm] at this

/-! ## The whole bag -/

/-- **The checksum** is that of all bytes in front of it, unless it is not asked for. -/
theorem parses_readCrc (config : Config) (header : Header) {data : Bytes}
    (hd : data.length = size) :
    Parses size position (readCrc config header data) fun bytes _ =>
      bytes.length = (if header.hasCrc then 4 else 0) ∧
        (header.hasCrc = true → config.verifyCrc = true →
          bytes = Bytes.ofNatReversed 4 (Crc32c.checksum (data.take position)).toNat) := by
  refine Parses.congr (Parses.ite (fun _ => Parses.after_since (Nat.zero_le _)
    ((parses_bytes 4).bind fun _ trailer _ => Parses.ite (fun _ => Parses.after_ofExcept
      fun body _ => parses_ensure _ _) fun _ => parses_pure _)) fun _ => parses_pure _)
    fun bytes _ hsize => ?_
  simp only [Nat.sub_zero, Checked.slice_eq_ok (show 0 + position ≤ data.length by omega),
    List.drop_zero, Except.ok.injEq, exists_eq_left', beq_iff_eq]
  cases header.hasCrc with
  | false => simp
  | true =>
    simp only [if_true, forall_const]
    cases config.verifyCrc with
    | false => simp
    | true =>
      simp only [if_true, forall_const]
      constructor
      · rintro ⟨_, trailer, _, rfl, ⟨hl, rfl⟩, hsum, rfl⟩
        rw [List.append_nil, ← hsum, ← hl, Bytes.ofNatReversed_toNatReversed]
        exact ⟨rfl, rfl⟩
      · rintro ⟨hl, rfl⟩
        exact ⟨_, _, [], (List.append_nil _).symm, ⟨hl, rfl⟩,
          Bytes.toNatReversed_ofNatReversed (UInt32.toNat_lt _), rfl⟩

theorem eq_of_getElem? {α : Type} {as bs : List α} (hl : as.length = bs.length)
    (h : ∀ (i : Nat) (a : α), as[i]? = some a → bs[i]? = some a) : bs = as := by
  refine List.ext_getElem hl.symm fun i hb ha => ?_
  exact Option.some.inj ((List.getElem?_eq_getElem hb).symm.trans
    (h i _ (List.getElem?_eq_getElem ha)))

/-- **The index** lists the ends of the records. -/
theorem offsets_eq_iff {header : Header} {entries : List Nat} {records : List Bytes}
    (hcells : records.length = header.cells) (htotal : records.flatten.length = header.total) :
    entries.map header.offset = (if header.hasIndex then ends 0 records else []) ↔
      ∃ index : Option (List Nat), (if header.hasIndex then
          index = some (entries.map header.offset) ∧ entries.length = header.cells ∧
            Ascends header.total 0 (entries.map header.offset)
        else index = none ∧ entries = []) ∧
        ∀ offsets, index = some offsets → ∀ (i offset : Nat),
          (ends 0 records)[i]? = some offset → offsets[i]? = some offset := by
  split
  · constructor
    · intro h
      have hl := congrArg List.length h
      rw [length_ends, List.length_map, hcells] at hl
      refine ⟨_, ⟨rfl, hl, h ▸ ascends_ends ((Nat.zero_add _).trans htotal)⟩, ?_⟩
      rintro _ ⟨⟩ i offset hi
      rw [h]
      exact hi
    · rintro ⟨_, ⟨rfl, hl, -⟩, hends⟩
      refine eq_of_getElem? ?_ (hends _ rfl)
      rw [length_ends, List.length_map, hcells, hl]
  · constructor
    · intro h
      exact ⟨none, ⟨rfl, List.map_eq_nil_iff.mp h⟩, nofun⟩
    · rintro ⟨_, ⟨-, rfl⟩, -⟩
      rfl

theorem Source.bytes_eq (source : Source) :
    source.bytes = source.header.bytes ++
      ((source.entries.map (Bytes.ofNat source.header.offsetSize)).flatten ++
        ((source.records.map (Record.bytes source.header.refSize)).flatten ++ source.trailer)) := by
  simp only [bytes, body, printed, List.append_assoc]

theorem Source.length_body (source : Source) :
    source.body.length = source.header.bytes.length +
      (source.entries.map (Bytes.ofNat source.header.offsetSize)).flatten.length +
      (source.records.map (Record.bytes source.header.refSize)).flatten.length := by
  simp only [body, printed, List.length_append]

theorem Source.Framed.two_mul_le {config : Config} {source : Source} (h : source.Framed config) :
    2 * source.header.cells ≤ source.header.total := by
  have hle : ∀ record ∈ source.printed, 2 ≤ record.length := by
    simp only [Source.printed, List.mem_map]
    rintro _ ⟨record, -, rfl⟩
    simp only [Record.bytes, List.length_append, Bytes.length_ofNat]
    omega
  have := Written.le_length_flatten hle
  rwa [h.total, Source.printed, List.length_map, h.cells, Nat.mul_comm] at this

/-- A record takes at most two bytes of descriptors, 128 of data and sixteen of references. -/
theorem Record.Legal.length_le {cells own refSize : Nat} {record : Record}
    (h : record.Legal cells own) (hsize : refSize ≤ 4) : (record.bytes refSize).length ≤ 146 := by
  have hbits := h.bits_le
  have hrefs := h.refs_le
  unfold maxBits at hbits
  unfold maxRefs at hrefs
  have hdata : record.data.length ≤ 128 := by
    rcases h.closed with hfull | htag
    · omega
    · have := htag.length_bounds
      omega
  have : record.refs.length * refSize ≤ 4 * 4 := Nat.mul_le_mul hrefs hsize
  simp only [Record.bytes, List.length_append, Bytes.length_ofNat,
    Bytes.length_flatten_ofNat]
  omega

/-- A bag of the format stays far below what a machine word counts. -/
theorem Source.Framed.length_lt {config : Config} {source : Source} (h : source.Framed config) :
    source.bytes.length < Bits.bound 64 := by
  obtain ⟨-, h₄⟩ := h.header.form.refSize
  obtain ⟨-, h₈⟩ := h.header.offsetSize
  have hcells : source.header.cells ≤ 256 ^ 4 :=
    h.header.cells_lt.le.trans (Nat.pow_le_pow_right (by decide) h₄)
  have hheader : source.header.bytes.length ≤ 26 + 256 ^ 4 * 4 := by
    have hroots : (source.header.roots.map (Bytes.ofNat source.header.refSize)).flatten.length ≤
        256 ^ 4 * 4 := by
      rw [Bytes.length_flatten_ofNat]
      exact Nat.mul_le_mul (h.header.roots_le_cells.trans hcells) h₄
    unfold Header.bytes Preamble.bytes
    simp only [List.length_append, Bytes.length_ofNat]
    split
    · simp only [List.length_nil]
      omega
    · omega
  have hindex : (source.entries.map (Bytes.ofNat source.header.offsetSize)).flatten.length ≤
      256 ^ 4 * 8 := by
    have hentries : source.entries.length ≤ source.header.cells := by
      have hl := congrArg List.length h.offsets
      rw [List.length_map] at hl
      rw [hl]
      split
      · rw [length_ends, Source.printed, List.length_map, h.cells]
      · exact Nat.zero_le _
    rw [Bytes.length_flatten_ofNat]
    exact Nat.mul_le_mul (hentries.trans hcells) h₈
  have hrecords : source.printed.flatten.length ≤ 256 ^ 4 * 146 := by
    have hle : ∀ bytes ∈ source.printed, bytes.length ≤ 146 := by
      intro bytes hbytes
      obtain ⟨record, hrecord, rfl⟩ := List.mem_map.mp hbytes
      obtain ⟨own, hown⟩ := List.mem_iff_getElem?.mp hrecord
      exact (h.records own record hown).length_le h₄
    refine (Written.length_flatten_le hle).trans (Nat.mul_le_mul_right _ ?_)
    rw [Source.printed, List.length_map, h.cells]
    exact hcells
  have htrailer : source.trailer.length ≤ 4 := by
    rw [h.trailer]
    split <;> omega
  rw [Bits.bound_eq, Source.bytes, Source.body, List.length_append, List.length_append,
    List.length_append]
  norm_num at *
  omega

/-- **The parts of a bag**, one behind the other; `data` are the bytes the checksum is held
against. -/
theorem parses_readBag (config : Config) (data : Bytes) :
    Parses data.length 0 (readBag config data) fun bytes result =>
      bytes.length = data.length ∧ ∃ entries trailer,
        let source : Source := ⟨result.1, entries, result.2, trailer⟩
        source.Framed config ∧ bytes = source.bytes ∧
          (result.1.hasCrc = true → config.verifyCrc = true → trailer = Bytes.ofNatReversed 4
            (Crc32c.checksum (data.take source.body.length)).toNat) := by
  refine Parses.congr ((parses_readHeader config).bind_printed fun header hheader =>
    (parses_readIndex header).bind fun _ index _ =>
    Parses.after_since (Nat.zero_le _) (Parses.after_left (Parses.after_ensure fun _ =>
      (parses_readRecordsFrom hheader.1.cells_lt index (Nat.sub_le _ _) _ _).bind
      fun _ records _ => (parses_readCrc config header rfl).bind fun _ _ _ =>
      Parses.after_left (Parses.after_ensure fun _ => parses_pure (header, records)))))
    fun bytes result hle => ?_
  obtain ⟨header, records⟩ := result
  simp only [Nat.zero_add, Nat.sub_zero, Nat.sub_self, decide_eq_true_eq, beq_iff_eq,
    Source.length_body]
  constructor
  · rintro ⟨header, _, rfl, ⟨hheader, -⟩, _, index, _, rfl, ⟨entries, rfl, hlt, hindex⟩, -, _,
      records, _, rfl, ⟨rfl, hcells, htotal, hrecords, hends⟩, trailer, _, _, rfl,
      ⟨htrailer, hsum⟩, hend, rfl, ⟨⟩⟩
    have htotal := Nat.add_left_cancel htotal
    simp only [List.length_append, List.length_nil] at hle ⊢
    refine ⟨by omega, entries, trailer, ⟨hheader, ?_, hlt, hcells, hrecords, htotal, htrailer⟩,
      ?_, hsum⟩
    · exact (offsets_eq_iff ((List.length_map _).trans hcells) htotal).mpr ⟨index, hindex, hends⟩
    · rw [Source.bytes_eq, List.append_nil]
  · rintro ⟨hlen, entries, trailer, h, rfl, hsum⟩
    obtain ⟨index, hindex, hends⟩ :=
      (offsets_eq_iff ((List.length_map _).trans h.cells) h.total).mp h.offsets
    have htotal : (records.map (Record.bytes header.refSize)).flatten.length = header.total :=
      h.total
    have htrailer : trailer.length = if header.hasCrc then 4 else 0 := h.trailer
    simp only [Source.bytes_eq, List.length_append] at hlen
    exact ⟨header, _, Source.bytes_eq _, ⟨h.header, h.two_mul_le⟩, _, index, _, rfl,
      ⟨entries, rfl, h.entries_lt, hindex⟩, by dsimp only; omega, _, records, _, rfl,
      ⟨rfl, h.cells, by rw [htotal], h.records, hends⟩, trailer, (), [], (List.append_nil _).symm,
      ⟨h.trailer, hsum⟩, by dsimp only; omega, rfl, rfl⟩

/-- **What is read** is legal, and the bag is printed from it. -/
theorem legal_of_readBag {config : Config} {data : Bytes} {header : Header}
    {records : List Record} {after : Input}
    (h : readBag config data ⟨data, 0⟩ = .ok (header, records) after) :
    ∃ entries trailer, Source.Legal config ⟨header, entries, records, trailer⟩ ∧
      data = Source.bytes ⟨header, entries, records, trailer⟩ := by
  obtain ⟨bytes, hdata, -, hlen, entries, trailer, hframed, hbytes, hsum⟩ :=
    (parses_readBag config data).sound data _ after (Nat.zero_add _) h
  have hnil : after.rest = [] := by
    have := congrArg List.length hdata
    rw [List.length_append] at this
    exact List.length_eq_zero_iff.mp (by omega)
  rw [hnil, List.append_nil] at hdata
  subst hdata
  refine ⟨entries, trailer, ⟨hframed, fun hcrc hverify => ?_⟩, hbytes⟩
  have := hsum hcrc hverify
  rwa [hbytes, Source.bytes, List.take_left] at this

/-- **What is legal** is read off the bag printed from it. -/
theorem readBag_of_legal {config : Config} {source : Source} (h : source.Legal config) :
    readBag config source.bytes ⟨source.bytes, 0⟩ =
      .ok (source.header, source.records) ⟨[], source.bytes.length⟩ := by
  have hread := (parses_readBag config source.bytes).complete h.length_lt source.bytes
    (source.header, source.records) [] (by simp)
    ⟨rfl, source.entries, source.trailer, h.toFramed, rfl, fun hcrc hverify => ?_⟩
  · rwa [List.append_nil, Nat.zero_add] at hread
  · rw [Source.bytes, List.take_left]
    exact h.checksum hcrc hverify

end BagOfCells.Bag
