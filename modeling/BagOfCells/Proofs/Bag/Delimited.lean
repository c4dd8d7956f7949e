import BagOfCells.Proofs.Bag.Accepted

/-!
# Where a bag ends

The bytes of a bag tell where they end. A reader is delimited if the bytes it takes decide alone
what it gives: bytes behind them make no difference, and where some of them are missing it reports
the end of the input and nothing else. The readers of the header, the index, the records and the
checksum are all of this kind. Only two tests look at how many bytes there are. The one in front of
the records fails on a bag that is cut off behind its index, and the one behind the checksum fails
on a bag with bytes behind it.

## Main definitions

* `Bag.Takes read position bytes value`: the bytes a reader takes, whole or cut off
* `Bag.Delimited read`: a reader that takes some bytes wherever it succeeds
* `Bag.Parts`: a bag in four parts, each of which its reader takes

## Main results

* `Bag.Takes.bind`, `Bag.Delimited.bind`, `Bag.Delimited.many`: readers one after the other
* `Bag.parts_of_readBag`: the bytes of the header, the index, the records and the checksum
* `Bag.decode_delimited`: bags that are cut off, and bags with bytes behind them
-/

namespace BagOfCells.Bag

open Outcome

variable {α β : Type} {position : Nat}

/-! ## Delimited readers -/

/-- At a position of the input, a reader takes some bytes and gives a value. -/
structure Takes (read : Read α) (position : Nat) (bytes : Bytes) (value : α) : Prop where
  /-- What is behind the bytes makes no difference. -/
  whole : ∀ rest,
    read ⟨bytes ++ rest, position⟩ = .ok value ⟨rest, position + bytes.length⟩
  /-- The reader notices that some of the bytes are missing. -/
  cut : ∀ front back, bytes = front ++ back → back ≠ [] → ∃ stop needed after,
    read ⟨front, position⟩ = .error (.bag (.unexpectedEnd stop needed)) after

/-- Wherever a reader succeeds, it takes the bytes in front of those it leaves. -/
def Delimited (read : Read α) : Prop :=
  ∀ rest position value after, read ⟨rest, position⟩ = .ok value after →
    ∃ bytes left, rest = bytes ++ left ∧ after = ⟨left, position + bytes.length⟩ ∧
      Takes read position bytes value

/-- A step that leaves the input as it is takes no bytes. -/
theorem Takes.silent {read : Read α} {a : α}
    (h : ∀ rest, read ⟨rest, position⟩ = .ok a ⟨rest, position⟩) : Takes read position [] a where
  whole := h
  cut := by
    intro front back h hback
    exact absurd (List.append_eq_nil_iff.mp h.symm).2 hback

/-- A front of two parts ends within the first one, or within the second. -/
theorem append_split {first second front back : Bytes} (h : first ++ second = front ++ back) :
    (∃ missing, first = front ++ missing ∧ missing ≠ []) ∨
      ∃ front', front = first ++ front' ∧ second = front' ++ back := by
  rcases List.append_eq_append_iff.mp h with ⟨front', hfront, hsecond⟩ | ⟨missing, hfirst, hback⟩
  · exact .inr ⟨front', hfront, hsecond⟩
  · rcases eq_or_ne missing [] with rfl | hmissing
    · -- the front is just the first part
      rw [List.append_nil] at hfirst
      exact .inr ⟨[], by rw [hfirst, List.append_nil], hback.symm⟩
    · exact .inl ⟨missing, hfirst, hmissing⟩

/-- **Two readers.** Bytes that are missing are missed by the first reader or by the second. -/
theorem Takes.bind {read : Read α} {next : α → Read β} {first second : Bytes} {a : α} {b : β}
    (hr : Takes read position first a) (hn : Takes (next a) (position + first.length) second b) :
    Takes (read >>= next) position (first ++ second) b where
  whole := by
    intro rest
    rw [List.append_assoc, run_bind_of_ok (hr.whole _), hn.whole, List.length_append,
      Nat.add_assoc]
  cut := by
    intro front back h hback
    rcases append_split h with ⟨missing, rfl, hmissing⟩ | ⟨front, rfl, rfl⟩
    · obtain ⟨stop, needed, after, herror⟩ := hr.cut front missing rfl hmissing
      exact ⟨stop, needed, after, run_bind_of_error herror⟩
    · obtain ⟨stop, needed, after, herror⟩ := hn.cut front back rfl hback
      exact ⟨stop, needed, after, by rw [run_bind_of_ok (hr.whole _), herror]⟩

theorem Delimited.bind {read : Read α} {next : α → Read β} (hr : Delimited read)
    (hn : ∀ a, Delimited (next a)) : Delimited (read >>= next) := by
  intro rest position b after h
  obtain ⟨a, middle, hread, hnext⟩ := run_bind_eq_ok_iff.mp h
  obtain ⟨first, _, rfl, rfl, htakes⟩ := hr rest position a middle hread
  -- the second reader begins where the first one has stopped
  obtain ⟨second, left, rfl, rfl, htakes'⟩ := hn a _ _ b after hnext
  refine ⟨first ++ second, left, (List.append_assoc ..).symm, ?_, htakes.bind htakes'⟩
  rw [List.length_append, Nat.add_assoc]

theorem delimited_pure (a : α) : Delimited (pure a) := by
  rintro rest position _ _ ⟨⟩
  exact ⟨[], rest, rfl, rfl, .silent fun _ => rfl⟩

theorem delimited_throw (e : CellError) : Delimited (throw e : Read α) := by
  rintro rest position _ _ ⟨⟩

theorem delimited_ensure (condition : Bool) (fault : BagFault) :
    Delimited (ensure condition fault) := by
  unfold ensure
  split
  · exact delimited_pure ()
  · exact delimited_throw _

theorem delimited_ofExcept (x : Except CellError α) : Delimited (ofExcept x) := by
  cases x with
  | ok a => exact delimited_pure a
  | error e => exact delimited_throw e

/-- The way come depends on the position alone. -/
theorem delimited_since (start : Nat) : Delimited (readSince start) := by
  intro rest position way after h
  obtain ⟨hle, rfl, rfl⟩ := readSince_eq_ok h
  exact ⟨[], rest, rfl, rfl, .silent fun _ => readSince_eq hle⟩

/-- **Some bytes** are taken as they are. -/
theorem delimited_bytes (n : Nat) : Delimited (readBytes n) := by
  intro rest position value after h
  rw [readBytes_eq] at h
  split at h
  · cases h
  · next hn =>
    split at h
    · next hword =>
      cases h
      have hl : (rest.take n).length = n := List.length_take_of_le (Nat.le_of_not_lt hn)
      refine ⟨rest.take n, rest.drop n, (List.take_append_drop n rest).symm, by rw [hl],
        fun rest' => ?_, ?_⟩
      · exact reads_bytes hl rest' position (by rw [hl]; exact hword)
      · -- a proper front is shorter than the field
        intro front back hfront hback
        have := congrArg List.length hfront
        have := List.length_pos_of_ne_nil hback
        rw [hl, List.length_append] at *
        refine ⟨position, n, ⟨front, position⟩, ?_⟩
        rw [readBytes_eq, if_pos (by dsimp only; omega)]
    · cases h

theorem delimited_nat (n : Nat) : Delimited (readNat n) :=
  (delimited_bytes n).bind fun _ => delimited_pure _

theorem Delimited.many {read : Read α} (hr : Delimited read) (n : Nat) :
    Delimited (readMany read n) := by
  induction n with
  | zero => exact delimited_pure []
  | succ n ih => exact hr.bind fun first => ih.bind fun rest => delimited_pure (first :: rest)

/-! ## The parts of a bag -/

theorem delimited_readPreamble : Delimited readPreamble :=
  (delimited_nat 4).bind fun _ => (delimited_nat 1).bind fun _ => (delimited_ofExcept _).bind
    fun form => (delimited_ensure _ _).bind fun _ => (delimited_ensure _ _).bind fun _ =>
    delimited_pure form

theorem delimited_checkCounts (config : Config) (legacy : Bool) (cells roots absent : Nat) :
    Delimited (checkCounts config legacy cells roots absent) :=
  (delimited_ensure _ _).bind fun _ => (delimited_ensure _ _).bind fun _ =>
    (delimited_ensure _ _).bind fun _ => (delimited_ensure _ _).bind fun _ =>
    (delimited_ensure _ _).bind fun _ => (delimited_ofExcept _).bind fun _ =>
    (delimited_ensure _ _).bind fun _ => delimited_ensure _ _

theorem delimited_readCellNumber (refSize count : Nat) :
    Delimited (readCellNumber refSize count) := by
  refine (delimited_nat refSize).bind fun n => ?_
  dsimp only
  split
  · exact (delimited_throw _).bind fun _ => delimited_pure n
  · exact delimited_pure n

theorem delimited_readHeader (config : Config) : Delimited (readHeader config) := by
  refine delimited_readPreamble.bind fun form => (delimited_nat 1).bind fun offsetSize =>
    (delimited_ensure _ _).bind fun _ => (delimited_nat _).bind fun cells =>
    (delimited_nat _).bind fun roots => (delimited_nat _).bind fun absent =>
    (delimited_checkCounts _ _ _ _ _).bind fun _ => (delimited_nat _).bind fun total =>
    (delimited_ensure _ _).bind fun _ => ?_
  dsimp only
  split
  · exact delimited_pure _
  · exact ((delimited_readCellNumber _ _).many _).bind fun _ => delimited_pure _

theorem delimited_readEntries (header : Header) (count previous : Nat) :
    Delimited (readEntries header count previous) := by
  induction count generalizing previous with
  | zero => exact (delimited_ensure _ _).bind fun _ => delimited_pure []
  | succ count ih =>
    exact (delimited_nat _).bind fun entry => (delimited_ensure _ _).bind fun _ =>
      (ih _).bind fun _ => delimited_pure _

theorem delimited_readIndex (header : Header) : Delimited (readIndex header) := by
  unfold readIndex
  split
  · exact (delimited_readEntries _ _ _).bind fun _ => delimited_pure _
  · exact delimited_pure none

theorem delimited_recordBits (own descriptor : Nat) (data : Bytes) :
    Delimited (recordBits own descriptor data) := by
  unfold recordBits
  split
  · exact delimited_pure _
  · exact (delimited_ofExcept _).bind fun _ => (delimited_ensure _ _).bind fun _ =>
      delimited_ofExcept _

theorem delimited_recordKind (own : Nat) (exotic : Bool) (bits : Nat) (data : Bytes) :
    Delimited (recordKind own exotic bits data) := by
  unfold recordKind
  split
  · exact delimited_pure _
  · refine (delimited_ensure _ _).bind fun _ => (delimited_ofExcept _).bind fun byte => ?_
    split
    · exact delimited_pure _
    · exact delimited_throw _

theorem delimited_readRef (header : Header) (own : Nat) : Delimited (readRef header own) :=
  (delimited_readCellNumber _ _).bind fun _ => (delimited_ensure _ _).bind fun _ =>
    delimited_pure _

theorem delimited_readRecord (header : Header) (own : Nat) : Delimited (readRecord header own) :=
  (delimited_nat 1).bind fun _ => (delimited_nat 1).bind fun _ => (delimited_ensure _ _).bind
    fun _ => (delimited_ensure _ _).bind fun _ => (delimited_bytes _).bind fun _ =>
    (delimited_recordBits _ _ _).bind fun _ => (delimited_recordKind _ _ _ _).bind fun _ =>
    ((delimited_readRef header own).many _).bind fun _ => delimited_pure _

theorem delimited_checkEntry (index : Option (List Nat)) (own offset : Nat) :
    Delimited (checkEntry index own offset) := by
  cases index with
  | none => exact delimited_pure ()
  | some entries => exact (delimited_ofExcept _).bind fun _ => delimited_ensure _ _

theorem delimited_readRecordsFrom (header : Header) (index : Option (List Nat))
    (start count own : Nat) : Delimited (readRecordsFrom header index start count own) := by
  induction count generalizing own with
  | zero =>
    exact (delimited_since start).bind fun _ => (delimited_ensure _ _).bind fun _ =>
      delimited_pure []
  | succ count ih =>
    exact (delimited_readRecord header own).bind fun _ => (delimited_since start).bind fun _ =>
      (delimited_ensure _ _).bind fun _ => (delimited_checkEntry _ _ _).bind fun _ =>
      (ih _).bind fun _ => delimited_pure _

theorem delimited_readCrc (config : Config) (header : Header) (data : Bytes) :
    Delimited (readCrc config header data) := by
  unfold readCrc
  split
  · refine (delimited_since 0).bind fun _ => (delimited_bytes 4).bind fun _ => ?_
    dsimp only
    split
    · exact (delimited_ofExcept _).bind fun _ => delimited_ensure _ _
    · exact delimited_pure ()
  · exact delimited_pure ()

/-! ## The whole bag -/

section

variable {config : Config} {data : Bytes} {header : Header} {records : List Record}
  {after : Input}

/-- The records take as many bytes as the header has announced. -/
theorem position_of_readRecordsFrom {index : Option (List Nat)} {start count own : Nat}
    {input : Input} (h : readRecordsFrom header index start count own input = .ok records after) :
    start ≤ after.position ∧ after.position - start = header.total := by
  induction count generalizing own input records with
  | zero =>
    -- behind the last record the way come is held against the header
    obtain ⟨size, _, hsince, hrest⟩ := run_bind_eq_ok_iff.mp h
    obtain ⟨_, _, htest, ⟨⟩⟩ := run_bind_eq_ok_iff.mp hrest
    obtain ⟨hsize, rfl⟩ := ensure_eq_ok_iff.mp htest
    obtain ⟨hle, rfl, rfl⟩ := readSince_eq_ok hsince
    exact ⟨hle, beq_iff_eq.mp hsize⟩
  | succ count ih =>
    obtain ⟨_, _, -, h₁⟩ := run_bind_eq_ok_iff.mp h
    obtain ⟨_, _, -, h₂⟩ := run_bind_eq_ok_iff.mp h₁
    obtain ⟨_, _, -, h₃⟩ := run_bind_eq_ok_iff.mp h₂
    obtain ⟨_, _, -, h₄⟩ := run_bind_eq_ok_iff.mp h₃
    obtain ⟨_, _, hrecords, ⟨⟩⟩ := run_bind_eq_ok_iff.mp h₄
    exact ih hrecords

/-- A bag in four parts, one behind the other, each of which its reader takes: the header, the
index, the records and the checksum; `data` are the bytes the checksum is held against. -/
structure Parts (config : Config) (data : Bytes) (header : Header) (index : Option (List Nat))
    (records : List Record) (head list body trailer : Bytes) : Prop where
  takesHead : Takes (readHeader config) 0 head header
  takesList : Takes (readIndex header) head.length list index
  takesBody : Takes (readRecordsFrom header index (head.length + list.length) header.cells 0)
    (head.length + list.length) body records
  takesTrailer :
    Takes (readCrc config header data) (head.length + list.length + body.length) trailer ()
  length_body : body.length = header.total
  length_trailer : trailer.length = if header.hasCrc then 4 else 0

/-- **The parts** of a bag that is read. -/
theorem parts_of_readBag (h : readBag config data ⟨data, 0⟩ = .ok (header, records) after) :
    ∃ index head list body trailer, data = head ++ (list ++ (body ++ trailer)) ∧
      Parts config data header index records head list body trailer := by
  obtain ⟨_, _, hheader, h₁⟩ := run_bind_eq_ok_iff.mp h
  obtain ⟨head, _, hdata, rfl, takesHeader⟩ := delimited_readHeader config _ _ _ _ hheader
  obtain ⟨index, _, hindex, h₂⟩ := run_bind_eq_ok_iff.mp h₁
  obtain ⟨list, _, rfl, rfl, takesIndex⟩ := delimited_readIndex _ _ _ _ _ hindex
  -- the two tests that look at what is left take nothing
  rw [run_bind_of_ok (readSince_eq (Nat.zero_le _))] at h₂
  obtain ⟨_, _, ⟨⟩, h₃⟩ := run_bind_eq_ok_iff.mp h₂
  obtain ⟨_, _, htest, h₄⟩ := run_bind_eq_ok_iff.mp h₃
  obtain ⟨-, rfl⟩ := ensure_eq_ok_iff.mp htest
  obtain ⟨_, _, hrecords, h₅⟩ := run_bind_eq_ok_iff.mp h₄
  have htotal := position_of_readRecordsFrom hrecords
  obtain ⟨body, _, rfl, rfl, takesRecords⟩ := delimited_readRecordsFrom _ _ _ _ _ _ _ _ _ hrecords
  obtain ⟨_, _, hcrc, h₆⟩ := run_bind_eq_ok_iff.mp h₅
  obtain ⟨trailer, left, rfl, rfl, takesCrc⟩ := delimited_readCrc _ _ _ _ _ _ _ hcrc
  obtain ⟨_, _, ⟨⟩, h₇⟩ := run_bind_eq_ok_iff.mp h₆
  obtain ⟨_, _, hend, ⟨⟩⟩ := run_bind_eq_ok_iff.mp h₇
  obtain ⟨hnil, rfl⟩ := ensure_eq_ok_iff.mp hend
  obtain rfl : left = [] := List.length_eq_zero_iff.mp (beq_iff_eq.mp hnil)
  simp only [Nat.zero_add, Nat.sub_zero, List.append_nil]
    at hdata takesIndex takesRecords takesCrc htotal hcrc
  have hsize : head.length + list.length + body.length + trailer.length = data.length := by
    rw [hdata]
    simp only [List.length_append]
    omega
  obtain ⟨bytes, hbytes, -, htrailer, -⟩ :=
    (parses_readCrc config header rfl).sound trailer () _ hsize hcrc
  rw [List.append_nil] at hbytes
  subst hbytes
  exact ⟨index, head, list, body, trailer, hdata, takesHeader, takesIndex, takesRecords, takesCrc,
    by omega, htrailer⟩

/-- What is left of the reader of a bag behind the header and the index, whatever is there. -/
theorem Parts.readBag_eq {index : Option (List Nat)} {head list body trailer : Bytes}
    (h : Parts config data header index records head list body trailer) (all rest : Bytes) :
    readBag config all ⟨head ++ (list ++ rest), 0⟩ = (do
      ensure (header.total + (if header.hasCrc then 4 else 0) ≤ rest.length)
        (.truncated header.total rest.length)
      let records ← readRecordsFrom header index (head.length + list.length) header.cells 0
      readCrc config header all
      let left ← bytesLeft
      ensure (left == 0) (.trailingBytes left)
      return (header, records)) ⟨rest, head.length + list.length⟩ := by
  unfold readBag
  rw [run_bind_of_ok (h.takesHead.whole _), Nat.zero_add, run_bind_of_ok (h.takesList.whole _),
    run_bind_of_ok (readSince_eq (Nat.zero_le _)), run_bind_of_ok (bytesLeft_eq _), Nat.sub_zero]

/-- The checksum is that of the bytes in front of it. -/
theorem readCrc_append {rest tail : Bytes} (h : position ≤ data.length) :
    readCrc config header (data ++ tail) ⟨rest, position⟩ =
      readCrc config header data ⟨rest, position⟩ := by
  have hslice : Checked.slice (data ++ tail) 0 position = Checked.slice data 0 position := by
    rw [Checked.slice_eq_ok (by rw [List.length_append]; omega), Checked.slice_eq_ok (by omega),
      List.drop_zero, List.drop_zero, List.take_append_of_le_length h]
  unfold readCrc
  split
  · rw [run_bind_of_ok (readSince_eq (Nat.zero_le _)),
      run_bind_of_ok (readSince_eq (Nat.zero_le _))]
    dsimp only [Nat.sub_zero]
    rw [hslice]
  · rfl

/-- **A bag that is cut off**: within the header or the index the end of the input is met, and
behind them fewer bytes are left than the header announces. -/
theorem readBag_cut (h : readBag config data ⟨data, 0⟩ = .ok (header, records) after)
    {front back : Bytes} (hdata : data = front ++ back) (hback : back ≠ []) :
    ∃ fault last, readBag config front ⟨front, 0⟩ = .error (.bag fault) last ∧
      ((∃ stop needed, fault = .unexpectedEnd stop needed) ∨
        ∃ declared available, fault = .truncated declared available) := by
  obtain ⟨index, head, list, body, trailer, hbytes, parts⟩ := parts_of_readBag h
  rcases append_split (hbytes.symm.trans hdata) with
    ⟨missing, hhead, hmissing⟩ | ⟨front, rfl, hbehind⟩
  · obtain ⟨stop, needed, last, herror⟩ := parts.takesHead.cut front missing hhead hmissing
    exact ⟨_, last, run_bind_of_error herror, .inl ⟨stop, needed, rfl⟩⟩
  rcases append_split hbehind with ⟨missing, hlist, hmissing⟩ | ⟨front, rfl, hrest⟩
  · obtain ⟨stop, needed, last, herror⟩ := parts.takesList.cut front missing hlist hmissing
    refine ⟨_, last, ?_, .inl ⟨stop, needed, rfl⟩⟩
    unfold readBag
    rw [run_bind_of_ok (parts.takesHead.whole _), Nat.zero_add]
    exact run_bind_of_error herror
  · -- what is cut off is missing from what the header has announced
    have hshort : ¬ header.total + (if header.hasCrc then 4 else 0) ≤ front.length := by
      have hlength := congrArg List.length hrest
      have := List.length_pos_of_ne_nil hback
      rw [List.length_append, List.length_append, parts.length_body, parts.length_trailer]
        at hlength
      omega
    refine ⟨_, ⟨front, head.length + list.length⟩, ?_, .inr ⟨header.total, front.length, rfl⟩⟩
    rw [parts.readBag_eq, decide_eq_false hshort]
    rfl

/-- **A bag with bytes behind it** is read to its end, where they are found. -/
theorem readBag_append (h : readBag config data ⟨data, 0⟩ = .ok (header, records) after)
    {tail : Bytes} (htail : tail ≠ []) :
    ∃ last, readBag config (data ++ tail) ⟨data ++ tail, 0⟩ =
      .error (.bag (.trailingBytes tail.length)) last := by
  obtain ⟨index, head, list, body, trailer, hdata, parts⟩ := parts_of_readBag h
  have hsize : data.length = head.length + list.length + body.length + trailer.length := by
    rw [hdata]
    simp only [List.length_append]
    omega
  have hfits : header.total + (if header.hasCrc then 4 else 0) ≤
      (body ++ (trailer ++ tail)).length := by
    simp only [List.length_append, parts.length_body, parts.length_trailer]
    omega
  have hcrc : readCrc config header (data ++ tail)
      ⟨trailer ++ tail, head.length + list.length + body.length⟩ = .ok () ⟨tail, data.length⟩ := by
    rw [readCrc_append (by omega), parts.takesTrailer.whole, hsize]
  have hinput : Input.mk (data ++ tail) 0 =
      ⟨head ++ (list ++ (body ++ (trailer ++ tail))), 0⟩ := by
    rw [hdata]
    simp only [List.append_assoc]
  have hleft : (tail.length == 0) = false := by simpa using htail
  -- all parts are read as before, and the last test finds the tail
  refine ⟨⟨tail, data.length⟩, ?_⟩
  rw [hinput, parts.readBag_eq, decide_eq_true hfits, ensure_true, pure_bind,
    run_bind_of_ok (parts.takesBody.whole _), run_bind_of_ok hcrc, run_bind_of_ok (bytesLeft_eq _),
    hleft]
  rfl

/-- **Bags tell where they end.** No proper front of an accepted bag is accepted: either the end of
the input is met too early, or fewer bytes are left than are announced. Nor is the bag accepted with
any bytes behind it, and the error counts them. -/
theorem decode_delimited (config : Config) (data : Bytes) (roots : List Cell)
    (accepted : decode config data = .ok roots) :
    (∀ front back, data = front ++ back → back ≠ [] →
      (∃ stop needed, decode config front = .error (.bag (.unexpectedEnd stop needed))) ∨
        ∃ declared available,
          decode config front = .error (.bag (.truncated declared available))) ∧
      ∀ tail, tail ≠ [] →
        decode config (data ++ tail) = .error (.bag (.trailingBytes tail.length)) := by
  obtain ⟨source, -, -, -, hread, -, -⟩ := exists_of_decode accepted
  have hdecode {bytes : Bytes} {e : CellError} {last : Input}
      (h : readBag config bytes ⟨bytes, 0⟩ = .error e last) : decode config bytes = .error e := by
    rw [decode, h]
  constructor
  · intro front back hdata hback
    obtain ⟨_, last, herror, ⟨stop, needed, rfl⟩ | ⟨declared, available, rfl⟩⟩ :=
      readBag_cut hread hdata hback
    · exact .inl ⟨stop, needed, hdecode herror⟩
    · exact .inr ⟨declared, available, hdecode herror⟩
  · intro tail htail
    obtain ⟨last, herror⟩ := readBag_append hread htail
    exact hdecode herror

/-- A bag of the empty cell with an index, cache bits and a checksum. -/
def flaggedBag : Bytes :=
  [0xb5, 0xee, 0x9c, 0x72, 0xe1, 1, 1, 1, 0, 2, 0, 5, 0, 0, 0x18, 0xbf, 0x8f, 1]

theorem decode_flaggedBag : ∃ roots, decode {} flaggedBag = .ok roots := by
  have h : (decode {} flaggedBag).isOk = true := by decide +kernel
  cases hd : decode {} flaggedBag with
  | ok roots => exact ⟨roots, rfl⟩
  | error e =>
    rw [hd] at h
    cases h

theorem decode_delimited_flaggedBag :
    (∃ roots, decode {} flaggedBag = .ok roots) ∧
      (∀ size < flaggedBag.length, ∃ e, decode {} (flaggedBag.take size) = .error e) ∧
      decode {} (flaggedBag ++ [0]) = .error (.bag (.trailingBytes 1)) := by
  obtain ⟨roots, accepted⟩ := decode_flaggedBag
  obtain ⟨hfront, htail⟩ := decode_delimited {} flaggedBag roots accepted
  refine ⟨⟨roots, accepted⟩, fun size hsize => ?_, htail [0] (by simp)⟩
  rcases hfront (flaggedBag.take size) (flaggedBag.drop size) (List.take_append_drop ..).symm
    (List.drop_eq_nil_iff.not.mpr (Nat.not_le.mpr hsize)) with ⟨_, _, h⟩ | ⟨_, _, h⟩
  · exact ⟨_, h⟩
  · exact ⟨_, h⟩

end

end BagOfCells.Bag
