import BagOfCells.Proofs.Builder.History
import BagOfCells.Proofs.Slice.Packed

/-!
# Sequences of values

Each store of one value puts down bits and references that the matching load reads, whatever is
behind them. So the loads that match some stores, in the same order, read what all of them have put
down, one value after the other. A builder puts bits together at every offset and a slice takes them
apart at every offset, so this holds of the bytes.

## Main definitions

* `StoreCall.LoadedBy store load value`: the load gives the value that the store has put down
* `Entry`: a store with the load that matches it

## Main results

* `StoreCall.LoadedBy.reads`: what one store puts down, read by its load
* `Entry.reads_of_stores`: the stores of some entries, read by their loads
* `Entry.loads_stored`: entries that are stored are loaded, in order
-/

namespace BagOfCells

open Outcome

/-- A load gives the value that a store has put down. A number in up to 64 bits is loaded as a word
or as a number of any size, whichever it was stored as. Bits are loaded from the first byte on, with
zeros behind them. The length of a number takes at most 64 bits; an address has the flags that it
has in cells, and the keys of a dictionary have the width that it is loaded with. -/
inductive StoreCall.LoadedBy : StoreCall → LoadCall → Loaded → Prop where
  | bit (value : Bool) : LoadedBy (.bit value) .bit (.bit value)
  | bits (data : Bytes) (count : Nat) :
    LoadedBy (.bits data count) (.bits count) (.bytes (Bits.pack ((Bits.ofBytes data).take count)))
  | word (value : UInt64) {width : Nat} (h : width ≤ 64) :
    LoadedBy (.word value width) (.word width) (.word value)
  | wordAsNat (value : UInt64) (width : Nat) :
    LoadedBy (.word value width) (.nat width) (.nat value.toNat)
  | nat (value width : Nat) : LoadedBy (.nat value width) (.nat width) (.nat value)
  | natAsWord (value : Nat) {width : Nat} (h : width ≤ 64) :
    LoadedBy (.nat value width) (.word width) (.word value.toUInt64)
  | signedWord (value : Int64) {width : Nat} (h : width ≤ 64) :
    LoadedBy (.signedWord value width) (.signedWord width) (.signedWord value)
  | signedWordAsInt (value : Int64) (width : Nat) :
    LoadedBy (.signedWord value width) (.int width) (.int value.toInt)
  | int (value : Int) (width : Nat) : LoadedBy (.int value width) (.int width) (.int value)
  | intAsSignedWord (value : Int) {width : Nat} (h : width ≤ 64) :
    LoadedBy (.int value width) (.signedWord width) (.signedWord (Int64.ofInt value))
  | varNat (value : Nat) {lengthBits : Nat} (h : lengthBits ≤ 64) :
    LoadedBy (.varNat value lengthBits) (.varNat lengthBits) (.nat value)
  | coins (amount : Nat) : LoadedBy (.varNat amount 4) .coins (.nat amount)
  | ref {target : Cell} (made : target.Made) : LoadedBy (.ref target) .ref (.cell target)
  | maybeRef {target : Option Cell} (made : ∀ cell ∈ target, cell.Made) :
    LoadedBy (.maybeRef target) .maybeRef (.maybeCell target)
  | address {value : Option Address} (plain : ∀ address ∈ value, address.plain = address) :
    LoadedBy (.address value) .address (.address value)
  | dictionary {d : Dictionary} (valid : d.Valid) (h : d.width < 2 ^ 64) :
    LoadedBy (.dictionary (some d)) (.dictionary d.width) (.dictionary d)
  | noDictionary (width : Nat) :
    LoadedBy (.dictionary none) (.dictionary width) (.dictionary (.empty width))

/-- A store with the load that matches it. -/
structure Entry where
  storeCall : StoreCall
  loadCall : LoadCall
  value : Loaded
  loadedBy : storeCall.LoadedBy loadCall value

/-! ## Encodings that are read -/

namespace Slice

variable {α β : Type} {load : Load α} {bits : Bits} {refs : List Cell} {a : α} {rest : Bool}

theorem Reads.fmap (h : Reads load rest bits refs a) (f : α → β) :
    Reads (f <$> load) rest bits refs (f a) := by
  rw [map_eq_pure_bind]
  exact h.map f

/-- The word of a number in at most 64 bits is that number. -/
theorem toNat_toUInt64_of_size_le {value width : Nat} (hw : width ≤ 64)
    (h : Bits.size value ≤ width) : value.toUInt64.toNat = value :=
  Bits.toNat_toUInt64 (Bits.size_le_iff_lt.mp (h.trans hw))

theorem reads_ofNat_word {value width : Nat} (hw : width ≤ 64) (h : Bits.size value ≤ width) :
    Reads (loadWord width) rest (Bits.ofNat width value) [] value.toUInt64 := by
  have hvalue := toNat_toUInt64_of_size_le hw h
  have hread : Reads (loadWord width) rest _ [] _ :=
    reads_word hw (Bits.length_ofWord width value.toUInt64)
  rwa [Bits.toWord_ofWord hw (by rwa [hvalue, ← Bits.size_le_iff_lt]), Bits.ofWord_eq_ofNat hw,
    hvalue] at hread

/-- A number in two's complement, of any width that it fits. -/
theorem reads_ofInt {value : Int} {width : Nat} (h : Bits.signedSize value ≤ width) :
    Reads (loadInt width) rest (Bits.ofInt width value) [] value := by
  cases width with
  | zero =>
    obtain rfl := Bits.signedSize_le_zero_iff.mp h
    exact .pure 0
  | succ width => exact Builder.reads_int (Bits.signedSize_le_iff.mp h)

theorem reads_ofInt_word {value : Int} {width : Nat} (hw : width ≤ 64)
    (h : Bits.signedSize value ≤ width) :
    Reads (loadSignedWord width) rest (Bits.ofInt width value) [] (Int64.ofInt value) := by
  unfold loadSignedWord
  rw [if_neg (Nat.not_lt.mpr hw)]
  cases width with
  | zero =>
    obtain rfl := Bits.signedSize_le_zero_iff.mp h
    exact .pure 0
  | succ width =>
    have hl : (Bits.ofInt (width + 1) value).length = width + 1 := Bits.length_ofInt ..
    have hread : Reads (loadWord (width + 1) >>= fun word => pure (signExtend (width + 1) word))
        rest _ [] _ := (reads_word hw hl).map (signExtend (width + 1))
    rwa [signExtend_toWord hl hw, Bits.toInt_ofInt (Bits.signedSize_le_iff.mp h)] at hread

theorem reads_varNat {value length lengthBits : Nat} (hlength : (Bits.size value + 7) / 8 = length)
    (hw : lengthBits ≤ 64) (h : Bits.size length ≤ min lengthBits 16) :
    Reads (loadVarNat lengthBits) rest
      (Bits.ofNat lengthBits length ++ Bits.ofNat (8 * length) value) [] value := by
  -- the length takes at most sixteen bits
  have hlt : length < 2 ^ 16 := Bits.size_le_iff_lt.mp (h.trans (min_le_right ..))
  have hword : Reads (loadWord lengthBits) false _ [] _ :=
    reads_ofNat_word hw (h.trans (min_le_left ..))
  refine hword.bind ?_
  have hcheck : Reads (checkedLength (8 * length)) false [] [] (8 * length) := by
    rw [checkedLength, if_pos (by rw [Bits.bound_eq]; omega)]
    exact .pure _
  rw [Bits.toNat_toUInt64 (by omega)]
  exact hcheck.nothing_bind (Builder.reads_ofNat (by omega))

theorem reads_maybeRef (target : Option Cell) :
    Reads loadMaybeRef rest [target.isSome] target.toList target := by
  cases target with
  | none => exact reads_maybeRef_none
  | some cell => exact reads_maybeRef_some cell

theorem reads_noDictionary (width : Nat) :
    Reads (loadDictionary width) rest [false] [] (.empty width) :=
  reads_maybeRef_none.bind_nothing (.pure _)

/-- The root of a dictionary, if it has one, is read as the dictionary. -/
theorem reads_dictionary {d : Dictionary} {root : Option Cell} (valid : d.Valid)
    (hroot : d.toCell? = .ok root) :
    Reads (loadDictionary d.width) rest [root.isSome] root.toList d := by
  rcases valid.toCell?_cases hroot with ⟨rfl, hempty⟩ | ⟨cell, rfl, hcell⟩
  · have hread : Reads (loadDictionary d.width) rest _ _ _ := reads_noDictionary d.width
    rwa [← hempty] at hread
  · exact (reads_maybeRef_some cell).bind_nothing (reads_ofExcept hcell)

/-- **An amount** read byte by byte is that read as a number. -/
theorem loadCoins_eq : loadCoins = loadCoinsNat := by
  unfold loadCoins loadCoinsNat loadVarNat loadBytes checkedLength
  refine congrArg _ (funext fun length => funext fun s => ?_)
  split
  · change ((loadBits (8 * length.toNat) >>= fun bits => pure (Bits.pack bits)) >>=
      fun bytes => pure (Bytes.toNat bytes)) s =
        (loadBits (8 * length.toNat) >>= fun bits => pure (Bits.toNat bits)) s
    have hbits := loadBits_eq (8 * length.toNat) s
    rw [bind_assoc]
    split at hbits
    · next h =>
      rw [run_bind_of_ok hbits, run_bind_of_ok hbits, pure_bind,
        Bits.toNat_pack (List.length_take_of_le h)]
    · rw [run_bind_of_error hbits, run_bind_of_error hbits]
  · rfl

end Slice

/-! ## One store -/

namespace StoreCall

variable {store : StoreCall} {load : LoadCall} {value : Loaded} {room : Nat} {bits : Bits}
  {refs : List Cell}

open Slice

theorem unsigned_eq_some_iff {value width : Nat} :
    unsigned value width = some (bits, refs) ↔
      Bits.size value ≤ width ∧ bits = Bits.ofNat width value ∧ refs = [] := by
  rw [unsigned, Option.ite_none_right_eq_some, Option.some.injEq, Prod.mk.injEq, eq_comm,
    @eq_comm _ [] refs]

theorem signed_eq_some_iff {value : Int} {width : Nat} :
    signed value width = some (bits, refs) ↔
      Bits.signedSize value ≤ width ∧ bits = Bits.ofInt width value ∧ refs = [] := by
  rw [signed, Option.ite_none_right_eq_some, Option.some.injEq, Prod.mk.injEq, eq_comm,
    @eq_comm _ [] refs]

theorem encoding_dictionary_eq_some_iff {d : Dictionary} :
    (dictionary (some d)).encoding room = some (bits, refs) ↔
      ∃ root, d.toCell? = .ok root ∧ bits = [root.isSome] ∧ refs = root.toList := by
  change (((Functor.map some d.toCell? : Except CellError _).toOption >>= fun root =>
    pure (optional root.join)) = some (bits, refs)) ↔ _
  cases d.toCell? with
  | error e => exact ⟨nofun, nofun⟩
  | ok root =>
    change some (optional root) = _ ↔ _
    rw [optional, Option.some.injEq, Prod.mk.injEq]
    constructor
    · rintro ⟨rfl, rfl⟩
      exact ⟨root, rfl, rfl, rfl⟩
    · rintro ⟨_, ⟨⟩, rfl, rfl⟩
      exact ⟨rfl, rfl⟩

/-- The encoding of a number of variable length is read as that number. -/
theorem reads_encoding_varNat {value lengthBits : Nat} (hw : lengthBits ≤ 64)
    (h : (varNat value lengthBits).encoding room = some (bits, refs)) :
    Reads (loadVarNat lengthBits) false bits refs value ∧ refs = [] := by
  unfold encoding at h
  obtain ⟨hlength, h⟩ := Option.ite_none_right_eq_some.mp h
  cases h
  exact ⟨reads_varNat rfl hw hlength, rfl⟩

/-- **What a store has put down** is read by its load, and the references in it are made. -/
theorem LoadedBy.reads (h : store.LoadedBy load value)
    (hencoding : store.encoding room = some (bits, refs)) :
    Reads load.runOnBits false bits refs value ∧ ∀ ref ∈ refs, ref.Made := by
  cases h with
  | bit value =>
    cases hencoding
    exact ⟨(reads_bit value).fmap _, nofun⟩
  | bits data count =>
    obtain ⟨hcount, h⟩ := Option.ite_none_right_eq_some.mp hencoding
    cases h
    have hl : ((Bits.ofBytes data).take count).length = count :=
      List.length_take_of_le (by rwa [Bits.length_ofBytes])
    exact ⟨((reads_bits hl).map Bits.pack).fmap _, nofun⟩
  | word value hw =>
    obtain ⟨hfits, rfl, rfl⟩ := unsigned_eq_some_iff.mp hencoding
    have hread : Reads (loadWord _) false _ [] _ := reads_ofNat_word hw hfits
    have hvalue : value.toNat.toUInt64 = value := UInt64.ofNat_toNat
    rw [hvalue] at hread
    exact ⟨hread.fmap _, nofun⟩
  | wordAsNat value width =>
    obtain ⟨hfits, rfl, rfl⟩ := unsigned_eq_some_iff.mp hencoding
    exact ⟨(Builder.reads_ofNat hfits).fmap _, nofun⟩
  | nat value width =>
    obtain ⟨hfits, rfl, rfl⟩ := unsigned_eq_some_iff.mp hencoding
    exact ⟨(Builder.reads_ofNat hfits).fmap _, nofun⟩
  | natAsWord value hw =>
    obtain ⟨hfits, rfl, rfl⟩ := unsigned_eq_some_iff.mp hencoding
    exact ⟨(reads_ofNat_word hw hfits).fmap _, nofun⟩
  | signedWord value hw =>
    obtain ⟨hfits, rfl, rfl⟩ := signed_eq_some_iff.mp hencoding
    have hread : Reads (loadSignedWord _) false _ [] _ := reads_ofInt_word hw hfits
    rw [Int64.ofInt_toInt] at hread
    exact ⟨hread.fmap _, nofun⟩
  | signedWordAsInt value width =>
    obtain ⟨hfits, rfl, rfl⟩ := signed_eq_some_iff.mp hencoding
    exact ⟨(reads_ofInt hfits).fmap _, nofun⟩
  | int value width =>
    obtain ⟨hfits, rfl, rfl⟩ := signed_eq_some_iff.mp hencoding
    exact ⟨(reads_ofInt hfits).fmap _, nofun⟩
  | intAsSignedWord value hw =>
    obtain ⟨hfits, rfl, rfl⟩ := signed_eq_some_iff.mp hencoding
    exact ⟨(reads_ofInt_word hw hfits).fmap _, nofun⟩
  | varNat value hw =>
    obtain ⟨hread, rfl⟩ := reads_encoding_varNat hw hencoding
    exact ⟨hread.fmap _, nofun⟩
  | coins amount =>
    obtain ⟨hread, rfl⟩ := reads_encoding_varNat (by decide) hencoding
    have hcoins : Reads loadCoins false bits [] amount := loadCoins_eq ▸ hread
    exact ⟨hcoins.fmap _, nofun⟩
  | ref made =>
    cases hencoding
    exact ⟨(reads_ref _).fmap _, List.forall_mem_singleton.mpr made⟩
  | @maybeRef target made =>
    cases hencoding
    exact ⟨(reads_maybeRef target).fmap _, fun ref hr => made ref (Option.mem_toList.mp hr)⟩
  | @address value plain =>
    cases value with
    | none =>
      cases hencoding
      exact ⟨Builder.reads_noAddress.fmap _, nofun⟩
    | some address =>
      cases hencoding
      have hread : Reads loadAddress false _ [] _ := Builder.reads_address address
      rw [plain address rfl] at hread
      exact ⟨hread.fmap _, nofun⟩
  | @dictionary d valid _ =>
    obtain ⟨root, hroot, rfl, rfl⟩ := encoding_dictionary_eq_some_iff.mp hencoding
    have made := valid.made_toCell? hroot
    exact ⟨(reads_dictionary valid hroot).fmap _,
      fun ref hr => made ref (Option.mem_toList.mp hr)⟩
  | noDictionary width =>
    cases hencoding
    exact ⟨(reads_noDictionary width).fmap _, nofun⟩

end StoreCall

/-! ## Some stores -/

theorem StoreCall.LoadedBy.ne_reset {store : StoreCall} {load : LoadCall} {value : Loaded}
    (h : store.LoadedBy load value) : load ≠ .reset := by
  rintro rfl
  cases h

namespace Entry

open Slice

variable {b c : Builder}

/-- **One entry**: where its store succeeds, it puts down what its load reads. -/
theorem reads_of_store (entry : Entry) (hb : b.InLimits)
    (h : entry.storeCall.store b = .ok () c) :
    c.InLimits ∧ ∃ bits refs, c = b.behind bits refs ∧
      Reads entry.loadCall.runOnBits false bits refs entry.value ∧ ∀ ref ∈ refs, ref.Made := by
  obtain ⟨bits, refs, hencoding, hroom, rfl⟩ := (entry.storeCall.encodes b c hb).mp h
  exact ⟨hb.canFit_iff.mp hroom, bits, refs, rfl, entry.loadedBy.reads hencoding⟩

/-- **Some entries**: where all their stores succeed, these put down what their loads read. -/
theorem reads_of_stores (entries : List Entry) (hb : b.InLimits)
    (h : (entries.forM fun entry => entry.storeCall.store) b = .ok () c) :
    c.InLimits ∧ ∃ bits refs, c = b.behind bits refs ∧
      Reads (entries.mapM fun entry => entry.loadCall.runOnBits) false bits refs
        (entries.map value) ∧ ∀ ref ∈ refs, ref.Made := by
  induction entries generalizing b with
  | nil =>
    cases h
    exact ⟨hb, [], [], (Builder.behind_nil _).symm, .pure [], nofun⟩
  | cons entry entries ih =>
    obtain ⟨⟨⟩, d, hstore, hrest⟩ := run_bind_eq_ok_iff.mp h
    obtain ⟨hd, bits, refs, rfl, hread, hmade⟩ := entry.reads_of_store hb hstore
    obtain ⟨hc, bits', refs', rfl, hreads, hmade'⟩ := ih hd hrest
    refine ⟨hc, bits ++ bits', refs ++ refs', (Builder.behind_append ..).symm, ?_, ?_⟩
    · rw [List.mapM_cons]
      exact hread.bind (hreads.map _)
    · exact List.forall_mem_append.mpr ⟨hmade, hmade'⟩

/-- The loads of some entries, of a whole cell. -/
def loads (entries : List Entry) : PackedLoad (List Loaded) := do
  let values ← entries.mapM fun entry => entry.loadCall.run
  PackedSlice.endParse
  return values

/-- What some entries put down is read by their loads, to its end. -/
theorem loads_of_reads {entries : List Entry} {cell : Cell} (made : cell.Made)
    (h : Reads (entries.mapM fun entry => entry.loadCall.runOnBits) false cell.bits cell.refs
      (entries.map value)) :
    loads entries (.ofCell cell) =
      .ok (entries.map value) ⟨cell, cell.bits.length, cell.refs.length⟩ := by
  have hfollows := PackedSlice.follows_mapM (fun entry : Entry =>
    (entry.loadCall.follows entry.loadedBy.ne_reset).mono False.elim) entries
  have hloads := hfollows.bind fun values => PackedSlice.follows_endParse.bind fun _ =>
    PackedSlice.follows_pure values
  have hread : (do
      let values ← entries.mapM fun entry => entry.loadCall.runOnBits
      Slice.endParse
      return values : Load (List Loaded)) (ofCell cell) = .ok (entries.map value) ⟨cell, [], []⟩ :=
    run_bind_of_ok (h.run_ofCell made.sound)
  obtain ⟨s, hs, hahead, hrest⟩ := hloads.of_ok (PackedSlice.wellFormed_ofCell made) hread
  rw [hahead.wellFormed.eq_of_unpack hrest] at hs
  exact hs

/-- **What is stored is loaded**, in order: if some stores on an empty builder all succeed, the
loads that match them give what was stored, one value after the other, from the cell built, and
nothing is left of it; unless some depth leaves two bytes, so that no cell is built. -/
theorem loads_stored (entries : List Entry) {b : PackedBuilder}
    (stored : (entries.forM fun entry => entry.storeCall.run) .empty = .ok () b) :
    match b.endCell with
    | .ok cell => loads entries (.ofCell cell) =
        .ok (entries.map value) ⟨cell, cell.bits.length, cell.refs.length⟩
    | .error e => e = .overflow ∧
        Cell.Overdeep .ordinary (Layout.ordinaryMask b.refs) b.refs := by
  have hperforms := PackedBuilder.performs_forM (fun entry : Entry => entry.storeCall.performs)
    entries
  obtain ⟨c, hc, rfl⟩ := (hperforms.eq_ok_iff Builder.inLimits_empty).mp stored
  obtain ⟨hlimits, bits, refs, rfl, hreads, hmade⟩ :=
    reads_of_stores entries Builder.inLimits_empty hc
  have hend := StoreCall.endCell_pack hlimits
  cases hcell : (Builder.empty.behind bits refs).pack.endCell with
  | ok cell =>
    have hmake : Cell.make .ordinary bits refs = .ok cell :=
      (PackedBuilder.endExoticCell_pack hlimits .ordinary).symm.trans hcell
    have made : cell.Made :=
      Cell.made_iff.mpr ⟨Cell.sound_of_make hmake, (Cell.refs_make hmake).symm ▸ hmade⟩
    rw [← Cell.bits_make hmake, ← Cell.refs_make hmake] at hreads
    exact loads_of_reads made hreads
  | error e =>
    rw [hcell] at hend
    exact hend

/-- Values of several kinds, some of them across bytes. -/
def mixed : List Entry :=
  [⟨_, _, _, .bit true⟩,
    ⟨_, _, _, .word 5 (by decide : 3 ≤ 64)⟩,
    ⟨_, _, _, .int (-1000000000000000000000) 71⟩,
    ⟨_, _, _, .bits [0xab, 0xcd] 13⟩,
    ⟨_, _, _, .ref Cell.made_empty⟩,
    ⟨_, _, _, .coins 1000000000⟩,
    ⟨_, _, _, .noDictionary 32⟩]

theorem built_mixed : ∃ b cell, (mixed.forM fun entry => entry.storeCall.run) .empty = .ok () b ∧
    b.endCell = .ok cell := by
  have hbuilt : (match (mixed.forM fun entry => entry.storeCall.run) .empty with
      | .ok _ b => b.endCell.isOk
      | .error _ _ => false) = true := by decide +kernel
  split at hbuilt
  · next b hstored =>
    cases hcell : b.endCell with
    | ok cell => exact ⟨b, cell, hstored, hcell⟩
    | error e =>
      rw [hcell] at hbuilt
      cases hbuilt
  · cases hbuilt

theorem loads_stored_mixed : ∃ b cell,
    (mixed.forM fun entry => entry.storeCall.run) .empty = .ok () b ∧ b.endCell = .ok cell ∧
    loads mixed (.ofCell cell) =
      .ok [.bit true, .word 5, .int (-1000000000000000000000), .bytes [0xab, 0xc8],
        .cell .empty, .nat 1000000000, .dictionary (.empty 32)]
        ⟨cell, cell.bits.length, cell.refs.length⟩ := by
  obtain ⟨b, cell, stored, hcell⟩ := built_mixed
  have hloads := loads_stored mixed stored
  rw [hcell] at hloads
  exact ⟨b, cell, stored, hcell, hloads⟩

end Entry

end BagOfCells
