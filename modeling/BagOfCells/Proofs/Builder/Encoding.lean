import BagOfCells.Builder.Call
import BagOfCells.Proofs.Builder.Packed
import BagOfCells.Proofs.Wire.Values

/-!
# What a store puts down

A store succeeds exactly where its arguments have an encoding and a cell still holds it behind what
is stored; then it puts down the encoding and nothing else. Numbers of any width and machine words
have the same encodings, the low bits in two's complement, as long as the width holds them. Only a
snake is encoded otherwise where there is less room: more of it goes to the chain.

## Main definitions

* `Builder.Puts store bits refs`: a store puts these down where they fit
* `Builder.Fails step`: a step never succeeds
* `Builder.Encodes store encoding`: a store puts down an encoding, if there is one and it fits

## Main results

* `Builder.Puts.bind`: one after the other
* `Builder.puts_storeWord`, `Builder.puts_storeSignedWord`, `Builder.encodes_storeVarNat`: numbers
* `Builder.encodes_storeSnake`, `Builder.puts_storeAddress`,
  `Builder.encodes_storeExternalAddress`: the other stores of several parts
-/

namespace BagOfCells

open Outcome

namespace Builder

/-! ## Stores that put something down, and stores that fail -/

/-- A store succeeds where some bits and references fit, and puts them behind what is there. Why it
fails elsewhere is left open. -/
def Puts (store : Store) (bits : Bits) (refs : List Cell) : Prop :=
  ∀ b c : Builder, b.InLimits →
    (store b = .ok () c ↔ b.canFit bits.length refs.length = true ∧ c = b.behind bits refs)

/-- A step never succeeds. -/
def Fails {α : Type} (step : EStateM CellError Builder α) : Prop :=
  ∀ b a c, step b ≠ .ok a c

variable {store next : Store} {bits bits' : Bits} {refs refs' : List Cell}

theorem puts_append (bits : Bits) (refs : List Cell) : Puts (append bits refs) bits refs :=
  fun _ _ _ => append_eq_ok_iff

theorem puts_pure : Puts (pure ()) [] [] := by
  intro b c _
  have hfit : b.canFit 0 0 = true := canFit_iff.mpr ⟨Nat.zero_le _, Nat.zero_le _⟩
  rw [behind_nil, List.length_nil, List.length_nil, and_iff_right hfit]
  exact ⟨fun h => by cases h; rfl, fun h => h ▸ rfl⟩

/-- **One after the other.** -/
theorem Puts.bind (h : Puts store bits refs) (hn : Puts next bits' refs') :
    Puts (do store; next) (bits ++ bits') (refs ++ refs') := by
  intro b d hb
  rw [run_bind_eq_ok_iff, behind_append]
  constructor
  · rintro ⟨⟨⟩, c, hstore, hnext⟩
    obtain ⟨hfirst, rfl⟩ := (h b c hb).mp hstore
    obtain ⟨hsecond, rfl⟩ := (hn _ d (hb.canFit_iff.mp hfirst)).mp hnext
    have hlimits := (hb.canFit_iff.mp hfirst).canFit_iff.mp hsecond
    rw [← behind_append] at hlimits
    exact ⟨hb.canFit_iff.mpr hlimits, rfl⟩
  · rintro ⟨hroom, rfl⟩
    obtain ⟨hfirst, hsecond⟩ := canFit_behind hroom
    exact ⟨(), b.behind bits refs, (h _ _ hb).mpr ⟨hfirst, rfl⟩,
      (hn _ _ (hb.canFit_iff.mp hfirst)).mpr ⟨hsecond, rfl⟩⟩

/-- A look for room in front changes nothing. -/
theorem Puts.ensureFits (h : Puts store bits refs) {n m : Nat} (hbits : n = bits.length)
    (hrefs : m = refs.length) : Puts (do ensureFits n m; store) bits refs := by
  subst hbits hrefs
  intro b c hb
  rw [run_bind_eq_ok_iff, ← h b c hb]
  constructor
  · rintro ⟨⟨⟩, b', hfits, hstore⟩
    obtain ⟨rfl, -⟩ := checks_ensureFits _ _ _ _ _ hfits
    exact hstore
  · intro hstore
    refine ⟨(), b, ?_, hstore⟩
    rw [Builder.ensureFits, refusal?_eq_none_iff.mpr ((h b c hb).mp hstore).1]

/-- Nor does a look whether the length is one. -/
theorem Puts.checkedLength {next : Nat → Store} {n : Nat} (h : Puts (next n) bits refs)
    (hn : n = bits.length) : Puts (do let n ← checkedLength n; next n) bits refs := by
  intro b c hb
  unfold BagOfCells.checkedLength
  split
  · exact h b c hb
  · next hlarge =>
    refine ⟨nofun, ?_⟩
    rintro ⟨hroom, -⟩
    rw [canFit_iff, ← hn, Cell.maxBits] at hroom
    rw [Bits.bound_eq] at hlarge
    omega

section Fails

variable {α β : Type} {first : EStateM CellError Builder α}

theorem fails_throw (e : CellError) : Fails (throw e : EStateM CellError Builder α) :=
  fun _ _ _ h => nomatch h

theorem Fails.bind (h : Fails first) (next : α → EStateM CellError Builder β) :
    Fails (first >>= next) := by
  intro b a c hc
  obtain ⟨a', b', hfirst, -⟩ := run_bind_eq_ok_iff.mp hc
  exact h b a' b' hfirst

theorem Fails.after {next : α → EStateM CellError Builder β}
    (first : EStateM CellError Builder α) (h : ∀ a, Fails (next a)) : Fails (first >>= next) := by
  intro b a c hc
  obtain ⟨a', b', -, hnext⟩ := run_bind_eq_ok_iff.mp hc
  exact h a' b' a c hnext

end Fails

/-! ## Encodings -/

/-- A store succeeds exactly where its arguments have an encoding that fits, and puts it behind what
is there. The encoding may depend on the whole bytes there is room for. -/
def Encodes (store : Store) (encoding : Nat → Option (Bits × List Cell)) : Prop :=
  ∀ b c : Builder, b.InLimits →
    (store b = .ok () c ↔ ∃ bits refs, encoding b.availableBytes = some (bits, refs) ∧
      b.canFit bits.length refs.length = true ∧ c = b.behind bits refs)

theorem Puts.encodes (h : Puts store bits refs) : Encodes store fun _ => some (bits, refs) := by
  intro b c hb
  rw [h b c hb]
  constructor
  · intro hfit
    exact ⟨bits, refs, rfl, hfit⟩
  · rintro ⟨_, _, ⟨⟩, hfit⟩
    exact hfit

theorem Fails.encodes (h : Fails store) : Encodes store fun _ => none :=
  fun b c _ => ⟨fun hc => absurd hc (h b () c), fun ⟨_, _, hnone, _⟩ => nomatch hnone⟩

theorem encodes_ite {condition : Prop} [Decidable condition]
    (h : condition → Puts store bits refs) (h' : ¬ condition → Fails store) :
    Encodes store fun _ => if condition then some (bits, refs) else none := by
  split
  · next hc => exact (h hc).encodes
  · next hc => exact (h' hc).encodes

/-! ## Bits and bytes -/

theorem puts_storeBits {data : Bytes} {count : Nat} (h : count ≤ 8 * data.length) :
    Puts (storeBits data count) ((Bits.ofBytes data).take count) [] := by
  rw [storeBits_eq h]
  exact puts_append _ _

theorem fails_storeBits {data : Bytes} {count : Nat} (h : ¬ count ≤ 8 * data.length) :
    Fails (storeBits data count) := by
  refine Fails.after _ fun _ => ?_
  rw [if_pos (by omega)]
  exact (fails_throw _).bind _

theorem puts_storeBytes {data : Bytes} (h : Bits.ofBytes data = bits) :
    Puts (storeBytes data) bits [] :=
  h ▸ puts_append _ _

theorem puts_storeZeroes (count : Nat) :
    Puts (storeZeroes count) (List.replicate count false) [] :=
  (puts_append _ _).ensureFits List.length_replicate.symm rfl

/-! ## Numbers -/

theorem puts_storeNat {value width : Nat} (h : Bits.size value ≤ width) :
    Puts (storeNat value width) (Bits.ofNat width value) [] := by
  rw [storeNat_eq h]
  exact puts_append _ _

theorem fails_storeNat {value width : Nat} (h : ¬ Bits.size value ≤ width) :
    Fails (storeNat value width) := by
  unfold storeNat
  rw [if_pos (Nat.not_le.mp h)]
  exact (fails_throw _).bind _

theorem puts_storeLowBits (word : UInt64) {width : Nat} (h : width ≤ 64) :
    Puts (storeLowBits word width) (Bits.ofNat width word.toNat) [] := by
  unfold storeLowBits
  rw [if_neg (Nat.not_lt.mpr h), Bits.ofWord_eq_ofNat h]
  exact puts_append _ _

theorem fails_storeLowBits (word : UInt64) {width : Nat} (h : ¬ width ≤ 64) :
    Fails (storeLowBits word width) := by
  unfold storeLowBits
  rw [if_pos (Nat.not_le.mp h)]
  exact (fails_throw _).bind _

/-- A machine word is refused exactly when it is too large for its width. -/
theorem shiftRight_ne_zero_iff {word : UInt64} {width : Nat} (h : width ≤ 64) :
    width < 64 ∧ word >>> width.toUInt64 ≠ 0 ↔ ¬ Bits.size word.toNat ≤ width := by
  rw [Bits.size_le_iff_lt]
  rcases h.lt_or_eq with hlt | rfl
  · rw [and_iff_right hlt, ne_eq, Bits.shiftRight_eq_zero_iff hlt]
  · exact iff_of_false (fun hw => absurd hw.1 (lt_irrefl _)) (not_not_intro word.toNat_lt)

theorem puts_storeWord {word : UInt64} {width : Nat} (h : Bits.size word.toNat ≤ width) :
    Puts (storeWord word width) (Bits.ofNat width word.toNat) [] := by
  unfold storeWord
  split
  · exact puts_storeNat h
  · next hw =>
    have hw' := Nat.not_lt.mp hw
    rw [if_neg fun hlarge => (shiftRight_ne_zero_iff hw').mp hlarge h]
    exact puts_storeLowBits word hw'

theorem fails_storeWord {word : UInt64} {width : Nat} (h : ¬ Bits.size word.toNat ≤ width) :
    Fails (storeWord word width) := by
  unfold storeWord
  split
  · exact fails_storeNat h
  · next hw =>
    rw [if_pos ((shiftRight_ne_zero_iff (Nat.not_lt.mp hw)).mpr h)]
    exact (fails_throw _).bind _

theorem puts_storeInt {value : Int} {width : Nat} (h : Bits.signedSize value ≤ width) :
    Puts (storeInt value width) (Bits.ofInt width value) [] := by
  unfold storeInt
  split
  · next h0 =>
    subst h0
    rw [if_neg (not_not_intro (Bits.signedSize_le_zero_iff.mp h))]
    exact puts_pure
  · rw [if_neg (Nat.not_lt.mpr h)]
    exact (puts_append _ _).ensureFits (Bits.length_ofInt ..).symm rfl

theorem fails_storeInt {value : Int} {width : Nat} (h : ¬ Bits.signedSize value ≤ width) :
    Fails (storeInt value width) := by
  unfold storeInt
  split
  · next h0 =>
    subst h0
    rw [Bits.signedSize_le_zero_iff] at h
    rw [if_pos h]
    exact fails_throw _
  · rw [if_pos (Nat.not_le.mp h)]
    exact (fails_throw _).bind _

/-- The powers of two among the signed machine words. -/
theorem toInt_one_shiftLeft : ∀ n < 63, ((1 : Int64) <<< Int64.ofNat n).toInt = 2 ^ n ∧
    (-((1 : Int64) <<< Int64.ofNat n)).toInt = -2 ^ n := by
  decide +kernel

theorem signedWordFits_iff {word : Int64} {width : Nat} (h : width ≤ 64) :
    signedWordFits word width = true ↔ Bits.signedSize word.toInt ≤ width := by
  unfold signedWordFits
  split
  · next h0 =>
    rw [h0, Bits.signedSize_le_zero_iff, beq_iff_eq, ← Int64.toInt_inj]
    rfl
  · next h0 =>
    obtain ⟨width, rfl⟩ := Nat.exists_eq_succ_of_ne_zero h0
    rw [Bits.signedSize_le_iff]
    split
    · next h64 =>
      obtain rfl : width = 63 := Nat.succ.inj h64
      exact iff_of_true rfl ⟨word.le_toInt, word.toInt_lt⟩
    · next h64 =>
      obtain ⟨hbound, hneg⟩ := toInt_one_shiftLeft width (by omega)
      dsimp only
      rw [Nat.succ_sub_one, Bool.and_eq_true, decide_eq_true_iff, decide_eq_true_iff, ge_iff_le,
        Int64.le_iff_toInt_le, Int64.lt_iff_toInt_lt, hbound, hneg]

theorem puts_storeSignedWord {word : Int64} {width : Nat}
    (h : Bits.signedSize word.toInt ≤ width) :
    Puts (storeSignedWord word width) (Bits.ofInt width word.toInt) [] := by
  unfold storeSignedWord
  split
  · exact puts_storeInt h
  · next hw =>
    have hw' := Nat.not_lt.mp hw
    rw [if_neg (not_not_intro ((signedWordFits_iff hw').mpr h)), Bits.ofInt_word word hw']
    exact puts_storeLowBits _ hw'

theorem fails_storeSignedWord {word : Int64} {width : Nat}
    (h : ¬ Bits.signedSize word.toInt ≤ width) : Fails (storeSignedWord word width) := by
  unfold storeSignedWord
  split
  · exact fails_storeInt h
  · next hw =>
    rw [if_pos fun hfits => h ((signedWordFits_iff (Nat.not_lt.mp hw)).mp hfits)]
    exact (fails_throw _).bind _

/-- The length of a number in bytes and the number, one behind the other. -/
theorem puts_varNat {value lengthBits length : Nat} (hlength : (Bits.size value + 7) / 8 = length)
    (h : Bits.size length ≤ min lengthBits 16) :
    Puts (do storeWord length.toUInt64 lengthBits; storeNat value (8 * length))
      (Bits.ofNat lengthBits length ++ Bits.ofNat (8 * length) value) [] := by
  have hlt : length < 2 ^ 16 := Bits.size_le_iff_lt.mp (h.trans (Nat.min_le_right ..))
  have hword : length.toUInt64.toNat = length := Bits.toNat_toUInt64 (by omega)
  have hl : Puts (storeWord length.toUInt64 lengthBits)
      (Bits.ofNat lengthBits length.toUInt64.toNat) [] := by
    refine puts_storeWord ?_
    rw [hword]
    exact h.trans (Nat.min_le_left ..)
  have hv : Puts (storeNat value (8 * length)) (Bits.ofNat (8 * length) value) [] :=
    puts_storeNat (by omega)
  rw [hword] at hl
  exact hl.bind hv

/-- The limit on the length of a number is that of its field, up to sixteen bits. -/
theorem length_gt_iff {length lengthBits : Nat} :
    length > Bits.bound (min lengthBits 16) - 1 ↔ ¬ Bits.size length ≤ min lengthBits 16 := by
  rw [Bits.size_le_iff]
  have := Nat.two_pow_pos (min lengthBits 16)
  rw [← Bits.bound_eq] at this
  omega

theorem length_varNat (value lengthBits length : Nat) :
    lengthBits + 8 * length =
      (Bits.ofNat lengthBits length ++ Bits.ofNat (8 * length) value).length := by
  rw [List.length_append, Bits.length_ofNat, Bits.length_ofNat]

theorem puts_storeVarNat {value lengthBits : Nat}
    (h : Bits.size ((Bits.size value + 7) / 8) ≤ min lengthBits 16) :
    Puts (storeVarNat value lengthBits) (Bits.ofNat lengthBits ((Bits.size value + 7) / 8) ++
      Bits.ofNat (8 * ((Bits.size value + 7) / 8)) value) [] := by
  have hsum := length_varNat value lengthBits ((Bits.size value + 7) / 8)
  unfold storeVarNat
  rw [if_neg fun hlarge => length_gt_iff.mp hlarge h]
  exact ((puts_varNat rfl h).ensureFits hsum rfl).checkedLength hsum

theorem encodes_storeVarNat (value lengthBits : Nat) :
    Encodes (storeVarNat value lengthBits) fun _ =>
      let length := (Bits.size value + 7) / 8
      if Bits.size length ≤ min lengthBits 16 then
        some (Bits.ofNat lengthBits length ++ Bits.ofNat (8 * length) value, [])
      else none := by
  refine encodes_ite puts_storeVarNat fun h => ?_
  unfold storeVarNat
  rw [if_pos (length_gt_iff.mpr h)]
  exact (fails_throw _).bind _

/-! ## Contents, dictionaries and snakes -/

theorem puts_storeMaybeRef (target : Option Cell) :
    Puts (storeMaybeRef target) [target.isSome] target.toList := by
  cases target with
  | none => exact puts_append _ _
  | some cell => exact puts_append _ _

theorem encodes_storeDictionary (d : Option Dictionary) :
    Encodes (storeDictionary d) fun _ => do
      let root ← (d.mapM Dictionary.toCell?).toOption
      return StoreCall.optional root.join := by
  unfold storeDictionary
  cases d.mapM Dictionary.toCell? with
  | error e => exact ((fails_throw e).bind _).encodes
  | ok root => exact (puts_storeMaybeRef root.join).encodes

theorem encodes_storeCell (cell : Cell) :
    Encodes (storeCell cell) fun _ =>
      if cell.isExotic then none else some (cell.bits, cell.refs) := by
  unfold storeCell
  split
  · exact (fails_throw _).encodes
  · exact (puts_append _ _).encodes

/-- A chain of some links begins with a cell. -/
theorem length_toList_chain {data : Bytes} (h : ¬ data.isEmpty) {next : Option Cell}
    (hc : Snake.chain (Snake.links data) = .ok next) : next.toList.length = 1 := by
  rw [Snake.links, if_neg h, Snake.chain] at hc
  simp only [bind_eq_ok_iff, pure_eq_ok_iff] at hc
  obtain ⟨_, -, cell, -, rfl⟩ := hc
  rfl

/-- What a snake is made of: whole bytes, and a chain of the others. -/
theorem encodes_snake {head : Bytes} {n : Nat} (hn : head.length = n) (tail : Bytes) :
    Encodes
      (if tail.isEmpty then storeBytes head
      else do
        ensureFits (8 * n) 1
        let next ← ofExcept (Snake.chain (Snake.links tail))
        append (Bits.ofBytes head) next.toList)
      fun _ => do
        let next ← (Snake.chain (Snake.links tail)).toOption
        return (Bits.ofBytes head, next.toList) := by
  have hbits : 8 * n = (Bits.ofBytes head).length := by
    rw [Bits.length_ofBytes, hn]
  by_cases htail : tail.isEmpty
  · rw [if_pos htail, List.isEmpty_iff.mp htail, Snake.links]
    exact (puts_append (Bits.ofBytes head) []).encodes
  · rw [if_neg htail]
    cases hchain : Snake.chain (Snake.links tail) with
    | error e => exact (Fails.after _ fun _ => (fails_throw e).bind _).encodes
    | ok next =>
      have hone := length_toList_chain htail hchain
      have hput := (puts_append (Bits.ofBytes head) next.toList).ensureFits hbits hone.symm
      exact hput.encodes

theorem encodes_storeSnake (data : Bytes) :
    Encodes (storeSnake data) fun room => do
      let next ← (Snake.chain (Snake.links (data.drop room))).toOption
      return (Bits.ofBytes (data.take room), next.toList) := by
  intro b c hb
  have htake : data.take b.availableBytes = data.take (min data.length b.availableBytes) := by
    rw [Nat.min_comm, ← List.take_eq_take_min]
  have hdrop : data.drop b.availableBytes = data.drop (min data.length b.availableBytes) := by
    rw [Nat.min_comm, ← List.drop_eq_drop_min]
  -- no more bytes are taken than there are, which cuts the string at the same place
  have hlen : (data.take (min data.length b.availableBytes)).length =
      min data.length b.availableBytes := List.length_take_of_le (Nat.min_le_left ..)
  have hparts := encodes_snake hlen (data.drop (min data.length b.availableBytes)) b c hb
  simp only [htake, hdrop]
  exact hparts

/-! ## Addresses -/

/-- The parts of an address, one behind the other. -/
theorem puts_addressParts (address : Address) :
    Puts (do
      storeWord 0b10 2
      storeBit false
      storeSignedWord (Int64.ofInt address.workchain.toInt) 8
      storeBytes address.account.bytes) address.toBits [] := by
  have hform : Puts (storeWord 0b10 2) [true, false] [] := puts_storeWord (by decide)
  have hworkchain : Puts (storeSignedWord (Int64.ofInt address.workchain.toInt) 8)
      (Bits.ofInt 8 address.workchain.toInt) [] := by
    have hfits : Bits.signedSize (Int64.ofInt address.workchain.toInt).toInt ≤ 8 := by
      rw [toInt_workchain]
      exact Bits.signedSize_le_iff.mpr ⟨address.workchain.le_toInt, address.workchain.toInt_lt⟩
    have hput := puts_storeSignedWord hfits
    rwa [toInt_workchain] at hput
  rw [Address.toBits, List.append_assoc]
  exact hform.bind ((puts_append [false] []).bind (hworkchain.bind
    (puts_append (Bits.ofBytes address.account.bytes) [])))

theorem length_address (address : Address) : Address.width = address.toBits.length := by
  simp [Address.toBits, Address.width, address.account.length_bytes]

theorem puts_storeAddress (address : Address) :
    Puts (storeAddress (some address)) address.toBits [] :=
  (puts_addressParts address).ensureFits (length_address address) rfl

theorem encodes_storeExternalAddress (address : ExternalAddress) :
    Encodes (storeExternalAddress address) fun _ =>
      if address.length < 512 ∧ address.length ≤ 8 * address.data.length then
        some ([false, true] ++ Bits.ofNat 9 address.length ++
          (Bits.ofBytes address.data).take address.length, [])
      else none := by
  have hform : Puts (storeWord 0b01 2) [false, true] [] := puts_storeWord (by decide)
  have hword (h : address.length < 2 ^ 64) : address.length.toUInt64.toNat = address.length :=
    Bits.toNat_toUInt64 h
  refine encodes_ite (fun h => ?_) fun h => ?_
  · obtain ⟨hlength, hdata⟩ := h
    have hl : Puts (storeWord address.length.toUInt64 9)
        (Bits.ofNat 9 address.length.toUInt64.toNat) [] := by
      refine puts_storeWord (Bits.size_le_iff_lt.mpr ?_)
      rwa [hword (by omega)]
    rw [hword (by omega)] at hl
    have hsum : 2 + 9 + address.length = ([false, true] ++ Bits.ofNat 9 address.length ++
        (Bits.ofBytes address.data).take address.length).length := by
      rw [List.length_append, List.length_append, Bits.length_ofNat, List.length_take,
        Bits.length_ofBytes, Nat.min_eq_left hdata]
      rfl
    refine Puts.checkedLength (Puts.ensureFits ?_ hsum rfl) hsum
    rw [List.append_assoc]
    exact hform.bind (hl.bind (puts_storeBits hdata))
  · unfold storeExternalAddress
    by_cases hlarge : address.length < 2 ^ 64
    · -- the form is stored before the length or the data is found to have no encoding
      refine Fails.after _ fun _ => Fails.after _ fun _ => Fails.after _ fun _ => ?_
      by_cases hlength : address.length < 512
      · exact Fails.after _ fun _ => fails_storeBits fun hdata => h ⟨hlength, hdata⟩
      · refine (fails_storeWord ?_).bind _
        rw [Bits.size_le_iff_lt, hword hlarge]
        exact hlength
    · rw [checkedLength, if_neg (by rw [Bits.bound_eq]; omega)]
      exact (fails_throw _).bind _

end Builder

end BagOfCells
