import BagOfCells.Dictionary.Packed
import BagOfCells.Proofs.Builder.Encoding
import BagOfCells.Proofs.Dictionary.History
import BagOfCells.Proofs.Slice.Position

/-!
# Keys in other forms

A key denotes a bit string: as a machine word or a number by what the string spells, as bytes by
their first bits, whatever is behind them, and as an address by its bits in a cell, which are always
as many. All of these are turned into one number, the bytes by a shift and the address by way of the
bytes of its cell, and a dictionary goes by this number alone. So it does not matter in which form a
value is set, found or taken away. A number that the width does not hold denotes no bit string; such
a key is refused where a value is set, and finds nothing.

## Main definitions

* `Key.Denotes width key bits`: the bit string of a key
* `Dictionary.Finds d bits found`: what all keys of a bit string find

## Main results

* `Key.denotes_iff`: a key denotes the bit string of its number
* `Key.toNatPacked_eq`, `Address.cellBytes_eq`: the number made from bytes, and those of an address
* `Dictionary.finds_iff`: all forms find what is there under the number
* `Dictionary.Finds.apply`, `Dictionary.Finds.foldl`: what is found after other operations
* `Dictionary.forms_interchangeable`: values that are set, found and taken away in any form
-/

namespace BagOfCells

open Outcome

namespace Key

variable {key key' : Key} {width n : Nat} {bits bits' : Bits}

/-- A key denotes a bit string of a width: the one that spells its number, the one its bytes begin
with, or the bits of an address in a cell. -/
inductive Denotes (width : Nat) : Key → Bits → Prop where
  | word {value : UInt64} {bits : Bits} (length : bits.length = width)
    (spelled : Bits.toNat bits = value.toNat) : Denotes width (.word value) bits
  | number {value : Nat} {bits : Bits} (length : bits.length = width)
    (spelled : Bits.toNat bits = value) : Denotes width (.number value) bits
  | bits {data : Bytes} {bits : Bits} (length : bits.length = width)
    (front : bits <+: Bits.ofBytes data) : Denotes width (.bits data width) bits
  | address {a : Address} (length : a.toBits.length = width) :
    Denotes width (.address a) a.toBits

theorem Denotes.length_eq (h : key.Denotes width bits) : bits.length = width := by
  cases h <;> assumption

/-! ## One number -/

theorem ofBits_of_le {data : Bytes} (h : width ≤ 8 * data.length) :
    ofBits data width = .ok (Bits.toNat ((Bits.ofBytes data).take width)) :=
  if_neg (by omega)

/-- **A key denotes a bit string** exactly if it is the number of that string. -/
theorem denotes_iff :
    key.Denotes width bits ↔ bits.length = width ∧ key.toNat width = .ok (Bits.toNat bits) := by
  constructor
  · intro h
    refine ⟨h.length_eq, ?_⟩
    cases h with
    | word _ spelled => rw [toNat, spelled]
    | number _ spelled => rw [toNat, spelled]
    | @bits data _ length front =>
      have hle := front.length_le
      rw [length, Bits.length_ofBytes] at hle
      rw [toNat, if_neg (not_not_intro rfl), ofBits_of_le hle, ← length,
        ← List.prefix_iff_eq_take.mp front]
    | @address a length =>
      rw [toNat, if_neg (not_not_intro (length.symm.trans (Builder.length_address a).symm))]
  · rintro ⟨length, hkey⟩
    cases key with
    | word value => exact .word length (Except.ok.inj hkey).symm
    | number value => exact .number length (Except.ok.inj hkey).symm
    | bits data count =>
      rw [toNat] at hkey
      split at hkey
      · cases hkey
      next hcount =>
      obtain rfl := not_not.mp hcount
      rw [ofBits] at hkey
      split at hkey
      · cases hkey
      next hdata =>
      refine .bits length ?_
      -- strings of one length that spell one number are one string
      have hfront : (Bits.ofBytes data).take count = bits := by
        refine Bits.toNat_inj ?_ (Except.ok.inj hkey)
        rw [length, List.length_take, Bits.length_ofBytes]
        omega
      exact hfront ▸ List.take_prefix ..
    | address a =>
      rw [toNat] at hkey
      split at hkey
      · cases hkey
      next hwidth =>
      have hlength : a.toBits.length = width :=
        (Builder.length_address a).symm.trans (not_not.mp hwidth).symm
      have heq := Bits.toNat_inj (hlength.trans length.symm) (Except.ok.inj hkey)
      exact heq ▸ .address hlength

theorem exists_denotes_iff :
    (∃ bits, key.Denotes width bits) ↔ ∃ n < 2 ^ width, key.toNat width = .ok n := by
  simp only [denotes_iff]
  constructor
  · rintro ⟨bits, rfl, hkey⟩
    exact ⟨_, Bits.toNat_lt bits, hkey⟩
  · rintro ⟨n, hn, hkey⟩
    exact ⟨Bits.ofNat width n, Bits.length_ofNat .., by rw [Bits.toNat_ofNat hn, hkey]⟩

/-- A key denotes one bit string at most. -/
theorem Denotes.unique (h : key.Denotes width bits) (h' : key.Denotes width bits') :
    bits = bits' := by
  obtain ⟨length, hkey⟩ := denotes_iff.mp h
  obtain ⟨length', hkey'⟩ := denotes_iff.mp h'
  exact Bits.toNat_inj (length.trans length'.symm) (Except.ok.inj (hkey.symm.trans hkey'))

/-- **The number of an address**: a one, ten bits further on its workchain as a byte, then its
account. -/
theorem toNat_address (a : Address) : (address a).toNat 267 =
    .ok (2 ^ 266 + (a.workchain.toInt % 256).toNat * 2 ^ 256 +
      Bytes.toNat a.account.bytes) := by
  have hworkchain : Bits.toNat (Bits.ofInt 8 a.workchain.toInt) =
      (a.workchain.toInt % 256).toNat := by
    rw [Bits.ofInt, Bits.toNat_ofNat_mod]
    change (a.workchain.toInt % 256).toNat % 256 = _
    omega
  have haccount : (Bits.ofBytes a.account.bytes).length = 256 := by
    rw [Bits.length_ofBytes, a.account.length_bytes]
  have hwidth : 267 = Address.width := rfl
  rw [toNat, if_neg (not_not_intro hwidth), Address.toBits, Bits.toNat_append, Bits.toNat_append,
    hworkchain, Bits.length_ofInt, haccount, Bits.toNat_ofBytes]
  have hone : 2 ^ 266 = 4 * 2 ^ 8 * 2 ^ 256 := by
    rw [show 266 = 10 + 256 from rfl, pow_add]
    rfl
  rw [hone, ← Nat.add_mul]
  rfl

end Key

/-! ## From bytes -/

/-- The number of the first bits is left when the others are moved out. -/
theorem Bits.toNat_shiftRight (bits : Bits) (n : Nat) :
    Bits.toNat bits >>> (bits.length - n) = Bits.toNat (bits.take n) := by
  have hsplit := Bits.toNat_append (bits.take n) (bits.drop n)
  have htail := Bits.toNat_lt (bits.drop n)
  rw [List.take_append_drop, List.length_drop] at hsplit
  rw [List.length_drop] at htail
  rw [hsplit, Nat.shiftRight_eq_div_pow, Nat.add_comm,
    Nat.add_mul_div_right _ _ (Nat.two_pow_pos _), Nat.div_eq_of_lt htail, Nat.zero_add]

namespace Key

/-- The shifted number of the whole bytes is that of the bits. -/
theorem ofPacked_eq (data : Bytes) (length : Nat) : ofPacked data length = ofBits data length := by
  rw [ofPacked, ofBits]
  dsimp only
  split
  · rfl
  · next h =>
    generalize hneeded : (length + 7) / 8 = needed at h ⊢
    have hbytes : (data.take needed).length = needed := List.length_take_of_le (by omega)
    have hshift := Bits.toNat_shiftRight (Bits.ofBytes (data.take needed)) length
    rw [Bits.toNat_ofBytes, Bits.length_ofBytes, hbytes, Bits.ofBytes_take, List.take_take,
      Nat.min_eq_left (by omega)] at hshift
    have htail : Checked.minus (8 * needed) length = .ok (8 * needed - length) :=
      Checked.minus_eq_ok (by omega)
    rw [htail, ← hshift]
    rfl

end Key

/-- **The cell of an address** holds its bits and nothing else. -/
theorem Address.cellBytes_eq (a : Address) : a.cellBytes = .ok (Bits.pack a.toBits) := by
  have hlength := Builder.length_address a
  have hroom : Builder.empty.canFit a.toBits.length ([] : List Cell).length = true := by
    rw [← hlength]
    rfl
  have hstore : PackedBuilder.storeAddress (some a) .empty =
      .ok () (Builder.empty.behind a.toBits []).pack :=
    ((PackedBuilder.performs_storeAddress (some a)).eq_ok_iff Builder.inLimits_empty).mpr
      ⟨_, (Builder.puts_storeAddress a _ _ Builder.inLimits_empty).mpr ⟨hroom, rfl⟩, rfl⟩
  have hlimits := Builder.inLimits_empty.canFit_iff.mp hroom
  obtain ⟨cell, hmake, -⟩ := Cell.made_empty.sound.exists_make_ordinary rfl hlimits.1
  have hbuild : PackedBuilder.build (PackedBuilder.storeAddress (some a)) = .ok cell := by
    rw [PackedBuilder.build, hstore]
    exact (PackedBuilder.endExoticCell_pack hlimits .ordinary).trans hmake
  have hrefs : cell.refs = [] := Cell.refs_make hmake
  have hs : (PackedSlice.ofCell cell).WellFormed := PackedSlice.wellFormed_ofCell
    (Cell.made_iff.mpr ⟨Cell.sound_of_make hmake, hrefs ▸ nofun⟩)
  have hbits : (PackedSlice.ofCell cell).unpack.bits = a.toBits := Cell.bits_make hmake
  have hload := PackedSlice.takes_bits Address.width (.ofCell cell) hs
  rw [hbits, hlength, if_pos le_rfl, List.take_length, ← hlength] at hload
  refine bind_eq_ok_iff.mpr ⟨cell, hbuild, ?_⟩
  rw [hload]

namespace Key

/-- **The number of a key** from its bytes is that of its bits. -/
theorem toNatPacked_eq (key : Key) (width : Nat) : key.toNatPacked width = key.toNat width := by
  cases key with
  | word value => rfl
  | number value => rfl
  | bits data length => simp only [toNatPacked, toNat, ofPacked_eq]
  | address a =>
    have hdata : ofBits (Bits.pack a.toBits) Address.width = .ok (Bits.toNat a.toBits) := by
      rw [Builder.length_address, ofBits_of_le, Bits.take_ofBytes_pack]
      rw [Bits.length_pack]
      omega
    rw [toNatPacked, toNat, a.cellBytes_eq]
    split
    · rfl
    · change ofPacked _ _ = _
      rw [ofPacked_eq, hdata]

end Key

/-! ## What is found under a bit string -/

namespace Dictionary

/-- The key of an operation. -/
def Operation.key : Operation → Key
  | set key _ => key
  | delete key => key

/-- What an operation changes is under the number of its key. -/
theorem Operation.toNat_key {op : Operation} {width n : Nat} (h : op.target? width = some n) :
    op.key.toNat width = .ok n := by
  have hoption : (op.key.toNat width).toOption = some n := by
    cases op with
    | set key value => exact (Option.filter_eq_some_iff.mp h).1
    | delete key => exact h
  cases hkey : op.key.toNat width with
  | ok m =>
    rw [hkey] at hoption
    exact congrArg _ (Option.some.inj hoption)
  | error e =>
    rw [hkey] at hoption
    cases hoption

/-- A dictionary has a value, or none, under a bit string, whatever key denotes it. -/
def Finds (d : Dictionary) (bits : Bits) (found : Option Cell) : Prop :=
  ∀ key : Key, key.Denotes bits.length bits → d.get key = .ok found

variable {d : Dictionary} {key : Key} {bits : Bits} {found : Option Cell} {ops : List Operation}

/-- **All forms** of a bit string find what is there under its number. -/
theorem finds_iff (h : bits.length = d.width) :
    d.Finds bits found ↔ d.entries.lookup (Bits.toNat bits) = found := by
  have hget {key : Key} (hkey : key.Denotes bits.length bits) :
      d.get key = .ok (d.entries.lookup (Bits.toNat bits)) := by
    rw [h] at hkey
    rw [get, (Key.denotes_iff.mp hkey).2]
    rfl
  constructor
  · intro hfinds
    have hnumber : (Key.number (Bits.toNat bits)).Denotes bits.length bits := .number rfl rfl
    exact Except.ok.inj ((hget hnumber).symm.trans (hfinds _ hnumber))
  · rintro rfl key hkey
    exact hget hkey

theorem finds_mk_iff {width : Nat} {entries : List (Nat × Cell)} (h : bits.length = width) :
    (⟨width, entries⟩ : Dictionary).Finds bits found ↔
      entries.lookup (Bits.toNat bits) = found :=
  finds_iff h

/-- **A set value** is found under its bit string. -/
theorem set_of_denotes (h : key.Denotes d.width bits) (value : Cell) :
    ∃ old d', d.set key value = .ok (old, d') ∧ d.Finds bits old ∧ d'.width = d.width ∧
      d'.Finds bits (some value) := by
  have hlt := Bits.toNat_lt bits
  rw [h.length_eq] at hlt
  refine ⟨d.entries.lookup (Bits.toNat bits), ⟨d.width, insert (Bits.toNat bits) value d.entries⟩,
    ?_, (finds_iff h.length_eq).mpr rfl, rfl, ?_⟩
  · rw [set, index_of_lt (Key.denotes_iff.mp h).2 hlt]
    rfl
  · rw [finds_mk_iff h.length_eq, lookup_insert, if_pos rfl]

/-- A key without a bit string of the width is not set. -/
theorem set_of_not_denotes (h : ¬ ∃ bits, key.Denotes d.width bits) (value : Cell) :
    ∃ cause, d.set key value = .error (.valueOutOfRange cause) := by
  rw [Key.exists_denotes_iff] at h
  cases hkey : key.toNat d.width with
  | ok n =>
    have hlarge : ¬ n < 2 ^ d.width := fun hn => h ⟨n, hn, hkey⟩
    refine ⟨.keyWidth n d.width, ?_⟩
    rw [set, index_of_not_lt hkey hlarge]
    rfl
  | error e =>
    obtain ⟨cause, rfl⟩ := toNat_eq_error hkey
    refine ⟨cause, ?_⟩
    rw [set, index_of_error hkey]
    rfl

/-- **A deletion** gives what is found under a bit string, and leaves all others. -/
theorem delete_of_denotes (h : key.Denotes d.width bits) (hfinds : d.Finds bits found) :
    ∃ rest, d.delete key = .ok (found, rest) ∧ rest.Finds bits none ∧
      ∀ bits' found', bits'.length = d.width → bits' ≠ bits → d.Finds bits' found' →
        rest.Finds bits' found' := by
  obtain ⟨length, hkey⟩ := Key.denotes_iff.mp h
  rw [finds_iff length] at hfinds
  refine ⟨⟨d.width, d.entries.filter (·.1 ≠ Bits.toNat bits)⟩, ?_, ?_, ?_⟩
  · rw [delete, hkey, ← hfinds]
    rfl
  · rw [finds_mk_iff length, lookup_filter_ne, if_pos rfl]
  · intro bits' found' length' hne hfinds'
    have hnumber : Bits.toNat bits' ≠ Bits.toNat bits := fun heq =>
      hne (Bits.toNat_inj (length'.trans length.symm) heq)
    rw [finds_iff length'] at hfinds'
    rw [finds_mk_iff length', lookup_filter_ne, if_neg hnumber, hfinds']

/-- **A step**: an operation under a key that does not denote a bit string leaves what is found
there. -/
theorem Finds.apply {op : Operation} (length : bits.length = d.width)
    (h : ¬ op.key.Denotes d.width bits) (hfinds : d.Finds bits found) :
    (op.apply d).width = d.width ∧ (op.apply d).Finds bits found := by
  rcases op.run_cases d with ⟨n, htarget, -, hwidth, hlookup⟩ | ⟨-, -, hsame⟩
  -- a number that is changed is another one: the key would denote the bits otherwise
  · have hn : Bits.toNat bits ≠ n := by
      rintro rfl
      exact h (Key.denotes_iff.mpr ⟨length, Operation.toNat_key htarget⟩)
    rw [finds_iff length] at hfinds
    refine ⟨hwidth, (finds_iff (length.trans hwidth.symm)).mpr ?_⟩
    rw [hlookup, if_neg hn, hfinds]
  · rw [hsame]
    exact ⟨rfl, hfinds⟩

/-- **A run**: so do operations one after the other. -/
theorem Finds.foldl (length : bits.length = d.width)
    (h : ∀ op ∈ ops, ¬ op.key.Denotes d.width bits) (hfinds : d.Finds bits found) :
    (ops.foldl Operation.apply d).width = d.width ∧
      (ops.foldl Operation.apply d).Finds bits found := by
  induction ops generalizing d with
  | nil => exact ⟨rfl, hfinds⟩
  | cons op ops ih =>
    obtain ⟨hop, hops⟩ := List.forall_mem_cons.mp h
    obtain ⟨hwidth, hstep⟩ := hfinds.apply length hop
    obtain ⟨hwidth', hrun⟩ := ih (length.trans hwidth.symm) (hwidth ▸ hops) hstep
    exact ⟨hwidth'.trans hwidth, hrun⟩

/-- **Forms of keys are interchangeable.** A value set under a key that denotes a bit string is
found under all keys that do, whatever is done under others meanwhile, and a deletion under any of
them gives it and leaves none; what is done under others, and a deletion for others, changes nothing
that is found. The number of an address is that of its bits in a cell, whatever its flags. A key
that denotes no bit string of the width is refused for its range, and nothing is set. The number
that is made from the bytes of a key, those of the cell of an address among them, is the one that
all this goes by. -/
theorem forms_interchangeable (d : Dictionary) :
    (∀ (key : Key) bits, key.Denotes d.width bits → ∀ value, ∃ old d',
      d.set key value = .ok (old, d') ∧ d.Finds bits old ∧
      ∀ ops : List Operation, (∀ op ∈ ops, ¬ op.key.Denotes d.width bits) →
        let later := ops.foldl Operation.apply d'
        later.Finds bits (some value) ∧
        ∀ key' : Key, key'.Denotes d.width bits → ∃ rest,
          later.delete key' = .ok (some value, rest) ∧ rest.Finds bits none ∧
          ∀ bits' found, bits'.length = d.width → bits' ≠ bits → later.Finds bits' found →
            rest.Finds bits' found) ∧
    (∀ bits found, bits.length = d.width → d.Finds bits found → ∀ ops : List Operation,
      (∀ op ∈ ops, ¬ op.key.Denotes d.width bits) →
        (ops.foldl Operation.apply d).Finds bits found) ∧
    (∀ a : Address, (Key.address a).toNat 267 = .ok (2 ^ 266 +
        (a.workchain.toInt % 256).toNat * 2 ^ 256 + Bytes.toNat a.account.bytes) ∧
      ∀ bits, (Key.address a).Denotes 267 bits ↔ bits = a.plain.toBits) ∧
    (∀ key : Key, (¬ ∃ bits, key.Denotes d.width bits) → ∀ value,
      (∃ cause, d.set key value = .error (.valueOutOfRange cause)) ∧
        (Operation.set key value).apply d = d) ∧
    ∀ key : Key, key.toNatPacked d.width = key.toNat d.width := by
  refine ⟨fun key bits h value => ?_, fun bits found length hfinds ops hops =>
    (hfinds.foldl length hops).2, fun a => ⟨Key.toNat_address a, fun bits => ?_⟩,
    fun key h value => ?_, fun key => Key.toNatPacked_eq key d.width⟩
  · obtain ⟨old, d', hset, hold, hwidth, hfinds⟩ := set_of_denotes h value
    refine ⟨old, d', hset, hold, fun ops hops => ?_⟩
    -- the operations on others keep the width and the value, which a deletion then finds
    rw [← hwidth] at h hops
    obtain ⟨hlater, hrun⟩ := hfinds.foldl h.length_eq hops
    refine ⟨hrun, fun key' h' => ?_⟩
    rw [← hwidth, ← hlater] at h' ⊢
    exact delete_of_denotes h' hrun
  · have haddress : (Key.address a).Denotes 267 a.plain.toBits :=
      .address (Builder.length_address a).symm
    constructor
    · intro h
      exact h.unique haddress
    · rintro rfl
      exact haddress
  · obtain ⟨cause, hset⟩ := set_of_not_denotes h value
    exact ⟨⟨cause, hset⟩, Operation.apply_of_error hset⟩

/-- Four bits in front of others are five, also without them; sixteen does not fit them. -/
theorem forms_interchangeable_five :
    (∃ d', (empty 4).set (.bits [0x5f, 7] 4) .empty = .ok (none, d') ∧
      d'.get (.word 5) = .ok (some .empty) ∧ ∃ rest, d'.delete (.number 5) =
        .ok (some .empty, rest) ∧ rest.get (.bits [0x50] 4) = .ok none) ∧
    ∃ cause, (empty 4).set (.word 16) .empty = .error (.valueOutOfRange cause) := by
  obtain ⟨hforms, -, -, hrefused, -⟩ := forms_interchangeable (empty 4)
  have hdirty : (Key.bits [0x5f, 7] 4).Denotes 4 [false, true, false, true] :=
    .bits rfl ⟨_, rfl⟩
  have hclean : (Key.bits [0x50] 4).Denotes 4 [false, true, false, true] := .bits rfl ⟨_, rfl⟩
  have hlarge : ¬ ∃ bits, (Key.word 16).Denotes 4 bits := by
    rintro ⟨bits, h⟩
    cases h with
    | word length spelled =>
      have hlt := Bits.toNat_lt bits
      rw [length, spelled] at hlt
      exact absurd hlt (by decide)
  constructor
  · obtain ⟨old, d', hset, hold, hlater⟩ := hforms _ _ hdirty .empty
    obtain ⟨hfinds, hdelete⟩ := hlater [] nofun
    obtain ⟨rest, hrest, hnone, -⟩ := hdelete (.number 5) (.number rfl rfl)
    obtain rfl : none = old := Except.ok.inj (hold _ hdirty)
    exact ⟨d', hset, hfinds _ (.word rfl rfl), rest, hrest, hnone _ hclean⟩
  · exact (hrefused _ hlarge .empty).1

end Dictionary

end BagOfCells
