import BagOfCells.Address.Wire
import BagOfCells.Codec.Either
import BagOfCells.Proofs.Wire.Law

/-!
# Values that read back

Each store of a single value appends what the load of the same form reads: numbers of a width,
machine words, numbers of variable length, addresses but for the flags that are not stored, cells in
references, and cells inline or in a reference as their size tells.

## Main results

* `Builder.readsBack_nat`, `Builder.readsBack_int`, `Builder.readsBack_coins`: numbers
* `Builder.readsBack_word`, `Builder.readsBack_constant`: machine words
* `Builder.readsBack_address`: addresses
* `Builder.readsBack_cell`, `Builder.readsBack_either`: cells
-/

namespace BagOfCells.Builder

open Slice (Reads)

variable {α : Type} {rest : Bool}

/-! ## Bits and numbers -/

theorem readsBack_bit (bit : Bool) : ReadsBack (storeBit bit) Slice.loadBit rest bit :=
  appends_append (Slice.reads_bit bit)

theorem readsBack_bits (data : Bytes) (width : Nat) :
    ReadsBack (storeBits data width) (Slice.loadBits width) rest
      ((Bits.ofBytes data).take width) := by
  refine (checks_ensureFits width 0).bind fun _ _ => appends_refuse fun h => ?_
  apply appends_append
  apply Slice.reads_bits
  rw [List.length_take, Bits.length_ofBytes]
  omega

theorem reads_ofNat {value width : Nat} (h : Bits.size value ≤ width) :
    Reads (Slice.loadNat width) rest (Bits.ofNat width value) [] value := by
  have hread : Reads (Slice.loadNat width) rest _ [] _ :=
    Slice.reads_nat (Bits.length_ofNat width value)
  rwa [Bits.toNat_ofNat (Bits.size_le_iff_lt.mp h)] at hread

theorem readsBack_nat (value width : Nat) :
    ReadsBack (storeNat value width) (Slice.loadNat width) rest value := by
  unfold storeNat
  refine appends_refuse fun h => ?_
  exact (checks_ensureFits width 0).bind fun _ _ =>
    appends_append (reads_ofNat (Nat.not_lt.mp h))

/-- A number in two's complement is read by its sign and its low bits. -/
theorem reads_int {value : Int} {width : Nat} (h : -2 ^ width ≤ value ∧ value < 2 ^ width) :
    Reads (Slice.loadInt (width + 1)) rest (Bits.ofInt (width + 1) value) [] value := by
  have hl : (Bits.ofInt (width + 1) value).length = width + 1 := Bits.length_ofInt ..
  have hsign := Bits.head?_ofInt h
  have hnat := Bits.toNat_ofInt h
  have hread : Reads (Slice.loadNat (width + 1)) rest _ [] _ := Slice.reads_nat hl
  rcases hbits : Bits.ofInt (width + 1) value with _ | ⟨sign, bits⟩
  · rw [hbits] at hl
    cases hl
  · rw [hbits] at hsign hnat hread
    obtain rfl : sign = decide (value < 0) := Option.some.inj hsign
    rw [Slice.loadInt, if_neg (Nat.succ_ne_zero width)]
    refine Slice.Peeks.bind (Slice.peeks_word (by decide) (List.length_singleton ..))
      (hread.bind_nothing ?_)
    rw [Bits.toWord_singleton, hnat, Bits.bound_eq]
    by_cases hneg : value < 0
    · simpa [hneg] using Reads.pure value
    · simpa [hneg] using Reads.pure value

theorem readsBack_int (value : Int) (width : Nat) :
    ReadsBack (storeInt value width) (Slice.loadInt width) rest value := by
  cases width with
  | zero =>
    -- no bits hold zero alone
    unfold storeInt Slice.loadInt ReadsBack
    rw [if_pos rfl]
    split
    · exact appends_throw _
    · next h =>
      obtain rfl := not_not.mp h
      exact appends_pure (.pure 0)
  | succ width =>
    unfold storeInt
    rw [if_neg (Nat.succ_ne_zero width)]
    refine appends_refuse fun h => ?_
    refine (checks_ensureFits (width + 1) 0).bind fun _ _ => appends_append (reads_int ?_)
    exact Bits.signedSize_le_iff.mp (Nat.not_lt.mp h)

/-! ## Machine words -/

/-- A machine word is stored as its low bits, which must be all of it. -/
theorem appends_word (word : UInt64) {width : Nat} (hw : width ≤ 64) :
    Appends (storeWord word width) fun bits refs =>
      bits = Bits.ofWord width word ∧ refs = [] ∧ word.toNat < 2 ^ width := by
  unfold storeWord storeLowBits
  rw [if_neg (Nat.not_lt.mpr hw)]
  refine appends_refuse fun h => appends_refuse fun _ => appends_append ⟨rfl, rfl, ?_⟩
  rcases hw.lt_or_eq with hlt | rfl
  · rw [not_and, not_not] at h
    exact (Bits.shiftRight_eq_zero_iff hlt).mp (h hlt)
  · exact word.toNat_lt

theorem readsBack_word (word : UInt64) {width : Nat} (hw : width ≤ 64) :
    ReadsBack (storeWord word width) (Slice.loadWord width) rest word := by
  refine (appends_word word hw).mono ?_
  rintro _ _ ⟨rfl, rfl, hlt⟩
  have hread : Reads (Slice.loadWord width) rest _ [] _ :=
    Slice.reads_word hw (Bits.length_ofWord width word)
  rwa [Bits.toWord_ofWord hw hlt] at hread

/-- A whole machine word is stored as it is. -/
theorem readsBack_lowBits (word : UInt64) :
    ReadsBack (storeLowBits word 64) (Slice.loadWord 64) rest word := by
  unfold storeLowBits
  refine appends_refuse fun _ => appends_append ?_
  have hread : Reads (Slice.loadWord 64) rest _ [] _ :=
    Slice.reads_word le_rfl (Bits.length_ofWord 64 word)
  rwa [Bits.toWord_ofWord le_rfl word.toNat_lt] at hread

theorem readsBack_constant (word : UInt64) {width : Nat} (hw : width ≤ 64) :
    ReadsBack (storeWord word width) (Slice.loadConstant word width) rest () := by
  refine (appends_word word hw).mono ?_
  rintro _ _ ⟨rfl, rfl, hlt⟩
  have hread : Reads (Slice.loadConstant _ width) rest _ [] () :=
    Slice.reads_constant hw (Bits.length_ofWord width word)
  rwa [Bits.toWord_ofWord hw hlt] at hread

/-! ## Numbers of variable length -/

theorem readsBack_varNat (value : Nat) {lengthBits : Nat} (hw : lengthBits ≤ 64) :
    ReadsBack (storeVarNat value lengthBits) (Slice.loadVarNat lengthBits) rest value := by
  unfold storeVarNat
  refine appends_refuse fun h => ?_
  refine (checks_checkedLength _).bind fun _ _ => (checks_ensureFits _ 0).bind fun _ _ => ?_
  rw [Bits.bound_eq] at h
  -- the length takes at most sixteen bits
  have hsmall : (Bits.size value + 7) / 8 < 2 ^ 16 := by
    have : 2 ^ min lengthBits 16 ≤ 2 ^ 16 := Nat.pow_le_pow_right (by decide) (min_le_right ..)
    omega
  have htoNat : ((Bits.size value + 7) / 8).toUInt64.toNat = (Bits.size value + 7) / 8 :=
    Bits.toNat_toUInt64 (by omega)
  refine ReadsBack.bind (readsBack_word _ hw) ?_
  rw [htoNat]
  have hcheck : Reads (checkedLength (8 * ((Bits.size value + 7) / 8))) false [] []
      (8 * ((Bits.size value + 7) / 8)) := by
    rw [checkedLength, if_pos (by rw [Bits.bound_eq]; omega)]
    exact .pure _
  exact (readsBack_nat value _).mono fun _ _ => hcheck.nothing_bind

theorem readsBack_coins (amount : Nat) :
    ReadsBack (storeCoins amount) Slice.loadCoinsNat rest amount :=
  readsBack_varNat amount (by decide)

/-! ## Addresses -/

theorem toInt_workchain (workchain : Int8) :
    (Int64.ofInt workchain.toInt).toInt = workchain.toInt := by
  have hle := workchain.le_toInt
  have hlt := workchain.toInt_lt
  exact Int64.toInt_ofInt_of_le (by omega) (by omega)

theorem ofWord_workchain (workchain : Int8) :
    Bits.ofWord 8 (Int64.ofInt workchain.toInt).toUInt64 = Bits.ofInt 8 workchain.toInt := by
  rw [Bits.ofWord_eq_ofNat (by decide), ← Bits.ofInt_word _ (by decide), toInt_workchain]

theorem signExtend_workchain (workchain : Int8) :
    (Slice.signExtend 8 (Bits.toWord (Bits.ofInt 8 workchain.toInt))).toInt8 = workchain := by
  -- a workchain is one of 256 numbers
  obtain ⟨⟨⟨n⟩⟩⟩ := workchain
  revert n
  decide +kernel

theorem writes_signedWord (word : Int64) {width : Nat} (hw : width ≤ 64) :
    Writes (storeSignedWord word width) (Bits.ofWord width word.toUInt64) := by
  unfold storeSignedWord storeLowBits
  rw [if_neg (Nat.not_lt.mpr hw)]
  refine appends_refuse fun _ => ?_
  exact appends_refuse fun _ => writes_append _

/-- An internal address is stored as its bits. -/
theorem writes_address (address : Address) :
    Writes (storeAddress (some address)) address.toBits := by
  refine (checks_ensureFits _ 0).bind fun _ _ => ?_
  have hform : Writes (storeWord 0b10 2) [true, false] := by
    refine (appends_word 0b10 (by decide)).mono ?_
    rintro _ _ ⟨rfl, rfl, -⟩
    exact ⟨rfl, rfl⟩
  have hworkchain : Writes (storeSignedWord (Int64.ofInt address.workchain.toInt) 8) _ :=
    writes_signedWord _ (by decide)
  rw [ofWord_workchain] at hworkchain
  rw [Address.toBits, List.append_assoc]
  exact hform.bind ((writes_append [false]).bind (hworkchain.bind (writes_append _)))

/-- An address has in cells no flags of its own. -/
theorem reads_address (address : Address) :
    Reads Slice.loadAddress rest address.toBits [] (some address.plain) := by
  have hl : Address.width ≤ address.toBits.length := by
    simp [Address.toBits, Address.width, address.account.length_bytes]
  have hworkchain : Reads (Slice.loadSignedWord 8) false _ [] _ :=
    (Slice.reads_word (by decide) (Bits.length_ofInt 8 address.workchain.toInt)).map
      (Slice.signExtend 8)
  have haccount : Reads (Slice.loadBytes 32) rest _ [] _ :=
    Slice.reads_bytes address.account.length_bytes (by decide)
  have hplain : Address.ofParts
      (Slice.signExtend 8 (Bits.toWord (Bits.ofInt 8 address.workchain.toInt))).toInt8
      (.ofBytes address.account.bytes) = address.plain := by
    rw [signExtend_workchain,
      Cell.digest_eq (Cell.bytes_ofBytes address.account.length_bytes)]
    rfl
  rw [← hplain]
  rw [Address.toBits, List.append_assoc] at hl ⊢
  refine (Slice.peeks_word (by decide) rfl : Slice.Peeks _ [true, false] _).bind ?_
  rw [if_neg (by decide), if_pos (by decide)]
  refine (Slice.peeks_ensureBits hl).bind_self ?_
  refine (Slice.reads_skipBits rfl : Reads _ _ [true, false] _ _).bind ?_
  refine (Slice.reads_bit false).bind ?_
  exact hworkchain.bind (haccount.map _)

theorem reads_noAddress : Reads Slice.loadAddress rest [false, false] [] none :=
  (Slice.peeks_word (by decide) rfl).bind_self
    ((Slice.reads_skipBits rfl).bind_nothing (.pure none))

theorem readsBack_address (address : Option Address) :
    ReadsBack (storeAddress address) Slice.loadAddress rest (address.map Address.plain) := by
  cases address with
  | some address => exact (writes_address address).readsBack (reads_address address)
  | none =>
    refine (appends_word 0 (by decide)).mono ?_
    rintro _ _ ⟨rfl, rfl, -⟩
    exact reads_noAddress

/-! ## Cells -/

theorem readsBack_ref (cell : Cell) : ReadsBack (storeRef cell) Slice.loadRef rest cell :=
  appends_append (Slice.reads_ref cell)

theorem readsBack_maybeRef (cell : Option Cell) :
    ReadsBack (storeMaybeRef cell) Slice.loadMaybeRef rest cell := by
  cases cell with
  | some cell => exact appends_append (Slice.reads_maybeRef_some cell)
  | none => exact appends_append Slice.reads_maybeRef_none

/-- The contents of a cell are stored if it is ordinary. -/
theorem appends_cell {cell : Cell} {form : Bits → List Cell → Prop}
    (h : cell.kind = .ordinary → form cell.bits cell.refs) : Appends (storeCell cell) form := by
  unfold storeCell
  split
  · exact appends_throw _
  · next he =>
    apply appends_append
    apply h
    simpa [Cell.isExotic, CellKind.isExotic] using he

theorem readsBack_cell {cell : Cell} (hs : cell.Sound) :
    ReadsBack (storeCell cell) Slice.toCell true cell :=
  appends_cell fun hk => Slice.reads_toCell hs hk

/-- **A cell inline or in a reference** reads back where what it holds does, in either place. -/
theorem readsBack_either {payload : Cell} {inline : Load α} {inRef : Cell → Except CellError α}
    {a : α} (hi : payload.kind = .ordinary → Reads inline rest payload.bits payload.refs a)
    (hr : inRef payload = .ok a) :
    ReadsBack (storeEither payload) (Slice.loadEither inline inRef) rest a := by
  refine checks_get.bind fun b _ => ?_
  split
  · have hinline : ReadsBack (storeCell payload) inline rest a := appends_cell hi
    exact (readsBack_bit false).bind hinline
  · refine appends_append ((Slice.reads_bit true).bind ((Slice.reads_ref payload).bind_nothing ?_))
    exact Slice.reads_ofExcept hr

end BagOfCells.Builder
