import BagOfCells.Builder.Packed
import BagOfCells.Proofs.Builder.Packing
import BagOfCells.Proofs.Cell.Made

/-!
# Stores on bytes and stores on bits

A store on a packed builder does to the bytes what the store of the same name does to the bits: it
ends in the packed form of what the other one ends in, with the same error if it fails, and what was
stored before is still there. This holds of one store after another, so it is shown for each store
by that of the stores it is made of. A store of several parts that looks first whether all of them
fit never fails at one of them.

## Main definitions

* `Builder.Grows`: a builder within limits that holds more than another one
* `PackedBuilder.Performs packed store`: the two do the same
* `PackedBuilder.Fills packed bits refs`: what a store does where there is room

## Main results

* `PackedBuilder.Performs.bind`, `PackedBuilder.Fills.bind`: one after the other
* `PackedBuilder.Fills.performs_ensureFits`: what fits, behind a look for room
* `PackedBuilder.performs_storeBits` and its like: each store
* `PackedBuilder.endExoticCell_pack`: the cell made
-/

namespace BagOfCells

open Outcome

variable {α β : Type}

/-! ## Builders that grow -/

/-- A builder within limits that holds in front what another one holds. -/
structure Builder.Grows (b c : Builder) : Prop where
  inLimits : c.InLimits
  bits : b.bits <+: c.bits
  refs : b.refs <+: c.refs

namespace Builder

theorem inLimits_empty : empty.InLimits := ⟨Nat.zero_le _, Nat.zero_le _⟩

theorem InLimits.grows {b : Builder} (h : b.InLimits) : b.Grows b :=
  ⟨h, List.prefix_rfl, List.prefix_rfl⟩

theorem Grows.trans {b c d : Builder} (h : b.Grows c) (h' : c.Grows d) : b.Grows d :=
  ⟨h'.inLimits, h.bits.trans h'.bits, h.refs.trans h'.refs⟩

theorem InLimits.grows_behind {b : Builder} {bits : Bits} {refs : List Cell} (hb : b.InLimits)
    (h : b.canFit bits.length refs.length = true) : b.Grows (b.behind bits refs) :=
  ⟨hb.canFit_iff.mp h, List.prefix_append .., List.prefix_append ..⟩

/-- Room for two stores is room for the first one, and then for the second one. -/
theorem canFit_behind {b : Builder} {bits bits' : Bits} {refs refs' : List Cell}
    (h : b.canFit (bits ++ bits').length (refs ++ refs').length = true) :
    b.canFit bits.length refs.length = true ∧
      (b.behind bits refs).canFit bits'.length refs'.length = true := by
  simp only [canFit_iff, behind, List.length_append] at h ⊢
  omega

/-- The first bits of enough bytes. -/
theorem storeBits_eq {bytes : Bytes} {count : Nat} (h : count ≤ 8 * bytes.length) :
    storeBits bytes count = append ((Bits.ofBytes bytes).take count) [] := by
  have happend := ensureFits_append ((Bits.ofBytes bytes).take count) []
  rw [Bits.length_take_ofBytes h] at happend
  rw [← happend, storeBits, if_neg (by omega)]
  rfl

end Builder

namespace PackedBuilder

/-! ## The same outcome -/

/-- The outcome on the bytes of a builder is that on its bits, and what was there is still there. -/
inductive Matches (b : Builder) :
    EStateM.Result CellError PackedBuilder α → EStateM.Result CellError Builder α → Prop where
  | ok (a : α) {c : Builder} (h : b.Grows c) : Matches b (.ok a c.pack) (.ok a c)
  | error (e : CellError) {c : Builder} (h : b.Grows c) :
    Matches b (.error e c.pack) (.error e c)

/-- Whatever a builder holds, a store does to its bytes what another one does to its bits. -/
def Performs (packed : EStateM CellError PackedBuilder α) (store : EStateM CellError Builder α) :
    Prop :=
  ∀ b : Builder, b.InLimits → Matches b (packed b.pack) (store b)

variable {p : EStateM CellError PackedBuilder α} {s : EStateM CellError Builder α}
  {b c : Builder}

theorem Matches.trans {r : EStateM.Result CellError PackedBuilder α}
    {r' : EStateM.Result CellError Builder α} (hbc : b.Grows c) (h : Matches c r r') :
    Matches b r r' := by
  cases h with
  | ok a h => exact .ok a (hbc.trans h)
  | error e h => exact .error e (hbc.trans h)

theorem Matches.bind {next : α → EStateM CellError PackedBuilder β}
    {next' : α → EStateM CellError Builder β} (h : Matches b (p b.pack) (s b))
    (hn : ∀ a c, b.Grows c → s b = .ok a c → Matches c (next a c.pack) (next' a c)) :
    Matches b ((p >>= next) b.pack) ((s >>= next') b) := by
  generalize hp : p b.pack = r, hs : s b = r' at h
  cases h with
  | ok a h =>
    rw [run_bind_of_ok hp, run_bind_of_ok hs]
    exact (hn a _ h hs).trans h
  | error e h =>
    rw [run_bind_of_error hp, run_bind_of_error hs]
    exact .error e h

/-- **One after the other.** -/
theorem Performs.bind {next : α → EStateM CellError PackedBuilder β}
    {next' : α → EStateM CellError Builder β} (h : Performs p s)
    (hn : ∀ a, Performs (next a) (next' a)) : Performs (p >>= next) (s >>= next') :=
  fun b hb => (h b hb).bind fun a c hc _ => hn a c hc.inLimits

/-- A store succeeds on the bytes where it does so on the bits. -/
theorem Performs.eq_ok_iff (h : Performs p s) (hb : b.InLimits) {a : α} {c : PackedBuilder} :
    p b.pack = .ok a c ↔ ∃ d, s b = .ok a d ∧ c = d.pack := by
  have hmatches := h b hb
  generalize p b.pack = r, s b = r' at hmatches ⊢
  cases hmatches with
  | @ok _ d _ =>
    constructor
    · rintro ⟨⟩
      exact ⟨d, rfl, rfl⟩
    · rintro ⟨_, ⟨⟩, rfl⟩
      rfl
  | error _ _ => exact ⟨nofun, fun ⟨_, hd, _⟩ => nomatch hd⟩

/-- It fails on the bytes where it does so on the bits. -/
theorem Performs.eq_error_iff (h : Performs p s) (hb : b.InLimits) {e : CellError}
    {c : PackedBuilder} : p b.pack = .error e c ↔ ∃ d, s b = .error e d ∧ c = d.pack := by
  have hmatches := h b hb
  generalize p b.pack = r, s b = r' at hmatches ⊢
  cases hmatches with
  | ok _ _ => exact ⟨nofun, fun ⟨_, hd, _⟩ => nomatch hd⟩
  | @error _ d _ =>
    constructor
    · rintro ⟨⟩
      exact ⟨d, rfl, rfl⟩
    · rintro ⟨_, ⟨⟩, rfl⟩
      rfl

theorem performs_pure (a : α) : Performs (pure a) (pure a) :=
  fun _ hb => .ok a hb.grows

/-- **Some stores**, one after the other. -/
theorem performs_forM {ι : Type} {packed : ι → PackedStore} {store : ι → Store}
    (h : ∀ i, Performs (packed i) (store i)) (items : List ι) :
    Performs (items.forM packed) (items.forM store) := by
  induction items with
  | nil => exact performs_pure ()
  | cons i items ih => exact (h i).bind fun _ => ih

theorem performs_throw (e : CellError) :
    Performs (throw e : EStateM CellError PackedBuilder α) (throw e) :=
  fun _ hb => .error e hb.grows

theorem performs_ofExcept (x : Except CellError α) : Performs (ofExcept x) (ofExcept x) := by
  cases x with
  | ok a => exact performs_pure a
  | error e => exact performs_throw e

theorem performs_checkedLength (n : Nat) : Performs (checkedLength n) (checkedLength n) := by
  unfold checkedLength
  split
  · exact performs_pure n
  · exact performs_throw _

theorem performs_ensureFits (bits refs : Nat) :
    Performs (ensureFits bits refs) (Builder.ensureFits bits refs) := by
  intro b hb
  rw [ensureFits_pack, Builder.ensureFits]
  cases b.refusal? bits refs with
  | none => exact .ok () hb.grows
  | some e => exact .error e hb.grows

/-- What follows a look for room has that room. -/
theorem performs_ensureFits_bind {bits refs : Nat} {packed : PackedStore} {store : Store}
    (h : ∀ b : Builder, b.InLimits → b.canFit bits refs = true →
      Matches b (packed b.pack) (store b)) :
    Performs (do ensureFits bits refs; packed) (do Builder.ensureFits bits refs; store) := by
  intro b hb
  refine (performs_ensureFits bits refs b hb).bind fun _ c _ hc => ?_
  unfold Builder.ensureFits at hc
  split at hc
  · cases hc
  · next hroom =>
    cases hc
    exact h b hb (Builder.refusal?_eq_none_iff.mp hroom)

theorem performs_ite {condition : Prop} [Decidable condition]
    {p' : EStateM CellError PackedBuilder α} {s' : EStateM CellError Builder α}
    (h : condition → Performs p s) (h' : ¬ condition → Performs p' s') :
    Performs (if condition then p else p') (if condition then s else s') := by
  split
  · next hc => exact h hc
  · next hc => exact h' hc

/-- A refusal in front of a store. -/
theorem performs_refuse {condition : Prop} [Decidable condition] {e : CellError}
    {next : Unit → EStateM CellError PackedBuilder α}
    {next' : Unit → EStateM CellError Builder α}
    (h : ¬ condition → Performs (next ()) (next' ())) :
    Performs (if condition then throw e >>= next else next ())
      (if condition then throw e >>= next' else next' ()) :=
  performs_ite (fun _ _ hb => .error e hb.grows) h

/-! ## What fits -/

/-- A store puts some bits and references behind what a builder holds, where they fit. -/
def Fills (packed : PackedStore) (bits : Bits) (refs : List Cell) : Prop :=
  ∀ b : Builder, b.canFit bits.length refs.length = true →
    packed b.pack = .ok () (b.behind bits refs).pack

variable {packed : PackedStore} {bits bits' : Bits} {refs refs' : List Cell}

theorem fills_pure : Fills (pure ()) [] [] := by
  intro b _
  rw [Builder.behind_nil]
  rfl

theorem fills_storeBits {bytes : Bytes} {count : Nat} (h : count ≤ 8 * bytes.length)
    (hbits : (Bits.ofBytes bytes).take count = bits) : Fills (storeBits bytes count) bits [] := by
  intro b hroom
  have hlen : bits.length = count := hbits ▸ Bits.length_take_ofBytes h
  rw [hlen, List.length_nil] at hroom
  rw [storeBits_pack hroom h, hbits]

theorem fills_storeRef (cell : Cell) : Fills (storeRef cell) [] [cell] := by
  intro b hroom
  -- room for one reference is a count below the limit
  have hfree : ¬ b.refs.length ≥ Cell.maxRefs := by
    rw [Builder.canFit_iff, List.length_singleton] at hroom
    omega
  change (if b.refs.length ≥ Cell.maxRefs then throw (.refs 1 0) >>= _ else
    set ({ b.pack with refs := b.refs ++ [cell] } : PackedBuilder) : PackedStore) b.pack = _
  rw [if_neg hfree, Builder.behind, List.append_nil]
  rfl

/-- **One after the other**, where both fit. -/
theorem Fills.bind {next : PackedStore} (h : Fills packed bits refs) (hn : Fills next bits' refs') :
    Fills (do packed; next) (bits ++ bits') (refs ++ refs') := by
  intro b hroom
  obtain ⟨hfirst, hnext⟩ := Builder.canFit_behind hroom
  rw [run_bind_of_ok (h b hfirst), hn _ hnext, Builder.behind_append]

theorem fills_forM_storeRef (refs : List Cell) : Fills (refs.forM storeRef) [] refs := by
  induction refs with
  | nil => exact fills_pure
  | cons cell refs ih => exact (fills_storeRef cell).bind ih

theorem Fills.atomically (h : Fills packed bits refs) : Fills (atomically packed) bits refs := by
  intro b hroom
  rw [PackedBuilder.atomically, h b hroom]

theorem Fills.matches (h : Fills packed bits refs) (hb : b.InLimits)
    (hroom : b.canFit bits.length refs.length = true) :
    Matches b (packed b.pack) (Builder.append bits refs b) := by
  rw [h b hroom, Builder.append, Builder.refusal?_eq_none_iff.mpr hroom]
  exact .ok () (hb.grows_behind hroom)

/-- **What fits** goes behind what is stored, and what does not is refused. -/
theorem Fills.performs (h : Fills packed bits refs)
    (hr : ∀ (b : Builder) (e : CellError), b.refusal? bits.length refs.length = some e →
      packed b.pack = .error e b.pack) : Performs packed (Builder.append bits refs) := by
  intro b hb
  cases hroom : b.refusal? bits.length refs.length with
  | none => exact h.matches hb (Builder.refusal?_eq_none_iff.mp hroom)
  | some e =>
    rw [hr b e hroom, Builder.append, hroom]
    exact .error e hb.grows

theorem ensureFits_bind_of_some {b : Builder} {bits refs : Nat} {e : CellError}
    (h : b.refusal? bits refs = some e) (next : Unit → PackedStore) :
    (ensureFits bits refs >>= next) b.pack = .error e b.pack :=
  run_bind_of_error (by rw [ensureFits_pack, h])

theorem ensureFits_bind_of_canFit {b : Builder} {bits refs : Nat}
    (h : b.canFit bits refs = true) (next : Unit → PackedStore) :
    (ensureFits bits refs >>= next) b.pack = next () b.pack :=
  run_bind_of_ok (by rw [ensureFits_pack, Builder.refusal?_eq_none_iff.mpr h])

theorem Fills.performs_ensureFits (h : Fills packed bits refs) :
    Performs (do ensureFits bits.length refs.length; packed) (Builder.append bits refs) := by
  refine Fills.performs (fun b hroom => ?_) fun b e he => ensureFits_bind_of_some he _
  rw [ensureFits_bind_of_canFit hroom, h b hroom]

/-! ## Bits and bytes -/

/-- **Bits of some bytes** are stored as bits. -/
theorem performs_storeBits_append {bytes : Bytes} {count : Nat} {bits : Bits}
    (h : count ≤ 8 * bytes.length) (hbits : (Bits.ofBytes bytes).take count = bits) :
    Performs (storeBits bytes count) (Builder.append bits []) := by
  have hlen : bits.length = count := hbits ▸ Bits.length_take_ofBytes h
  refine (fills_storeBits h hbits).performs fun b e he => ?_
  rw [hlen] at he
  exact ensureFits_bind_of_some he _

theorem performs_storeBits (bytes : Bytes) (count : Nat) :
    Performs (storeBits bytes count) (Builder.storeBits bytes count) := by
  by_cases h : bytes.length < (count + 7) / 8
  · refine (performs_ensureFits count 0).bind fun _ => ?_
    rw [if_pos h, if_pos h]
    exact fun _ hb => .error _ hb.grows
  · have hcount : count ≤ 8 * bytes.length := by omega
    rw [Builder.storeBits_eq hcount]
    exact performs_storeBits_append hcount rfl

theorem performs_storeBytes (bytes : Bytes) :
    Performs (storeBytes bytes) (Builder.storeBytes bytes) :=
  performs_storeBits_append le_rfl (Bits.take_ofBytes_length bytes)

theorem performs_storeByte (byte : UInt8) :
    Performs (storeByte byte) (Builder.storeBytes [byte]) :=
  performs_storeBytes [byte]

theorem performs_storeField (size value : Nat) :
    Performs (storeField size value) (Builder.storeBytes (Bytes.ofNat size value)) := by
  have h := performs_storeBytes (Bytes.ofNat size value)
  rwa [storeBytes, Bytes.length_ofNat] at h

theorem performs_storeBit (bit : Bool) : Performs (storeBit bit) (Builder.storeBit bit) := by
  cases bit with
  | false => exact performs_storeBits_append (by decide) rfl
  | true => exact performs_storeBits_append (by decide) rfl

theorem performs_storeZeroes (count : Nat) :
    Performs (storeZeroes count) (Builder.storeZeroes count) := by
  refine (performs_ensureFits count 0).bind fun _ => performs_storeBits_append ?_ ?_
  · rw [List.length_replicate]
    omega
  · rw [Bits.ofBytes_replicate_zero, List.take_replicate, Nat.min_eq_left (by omega)]

/-! ## Numbers -/

/-- Bits that need no room are stored by doing nothing. -/
theorem performs_append_nil : Performs (pure ()) (Builder.append [] []) :=
  fills_pure.performs fun b e he => by
    have hfit : b.canFit 0 0 = true := Builder.canFit_iff.mpr ⟨Nat.zero_le _, Nat.zero_le _⟩
    rw [List.length_nil, List.length_nil, Builder.refusal?_eq_none_iff.mpr hfit] at he
    cases he

theorem performs_storeNat (value width : Nat) :
    Performs (storeNat value width) (Builder.storeNat value width) := by
  unfold storeNat Builder.storeNat
  refine performs_refuse fun _ => (performs_ensureFits width 0).bind fun _ => ?_
  split
  · next h =>
    subst h
    exact performs_append_nil
  · -- the number is followed by zeros up to whole bytes
    have hshift := Bits.ofNat_shiftLeft width (8 * ((width + 7) / 8) - width) value
    rw [Nat.add_sub_cancel' (by omega)] at hshift
    refine performs_storeBits_append ?_ ?_
    · rw [Bytes.length_ofNat]
      omega
    · rw [Bits.ofBytes_ofNat, hshift, List.take_left' (Bits.length_ofNat ..)]

/-- The low bits of a machine word, whatever is above them. -/
theorem performs_storeLowBits (word word' : UInt64) (width : Nat)
    (h : ∀ i < width, word.toNat.testBit i = word'.toNat.testBit i) :
    Performs (storeLowBits word width) (Builder.storeLowBits word' width) := by
  unfold storeLowBits Builder.storeLowBits
  refine performs_refuse fun hw => ?_
  rw [Bits.ofWord_eq_ofNat (Nat.not_lt.mp hw), ← Bits.ofNat_congr h]
  split
  · next h0 =>
    subst h0
    exact performs_append_nil
  · refine performs_storeBits_append ?_ ?_
    · rw [Bytes.length_ofNat]
      omega
    · rw [Bits.ofBytes_ofNat]
      split
      · next h64 => rw [h64, List.take_of_length_le (Bits.length_ofNat ..).le]
      · next h64 =>
        have hshift := Bits.ofNat_shiftLeft width (64 - width) word.toNat
        rw [Nat.add_sub_cancel' (Nat.not_lt.mp hw)] at hshift
        rw [Bits.ofNat_word_shiftLeft word (by omega), hshift,
          List.take_left' (Bits.length_ofNat ..)]

theorem performs_storeWord (word : UInt64) (width : Nat) :
    Performs (storeWord word width) (Builder.storeWord word width) := by
  unfold storeWord Builder.storeWord
  refine performs_ite (fun _ => performs_storeNat _ _) fun _ => ?_
  exact performs_refuse fun _ => performs_storeLowBits word word width fun _ _ => rfl

theorem performs_storeInt (value : Int) (width : Nat) :
    Performs (storeInt value width) (Builder.storeInt value width) := by
  unfold storeInt Builder.storeInt
  refine performs_ite (fun _ => ?_) fun hw => ?_
  · exact performs_ite (fun _ => performs_throw _) fun _ => performs_pure ()
  · refine performs_refuse fun hsize => (performs_ensureFits width 0).bind fun _ => ?_
    -- the number of its two's complement fits the width
    have hlow := Bits.natAbs_eq_toNat_ofInt (Nat.not_lt.mp hsize) hw
    have hlt := Bits.toNat_lt (Bits.ofInt width value)
    have hbits := Bits.ofNat_toNat (Bits.ofInt width value)
    rw [Bits.length_ofInt] at hlt hbits
    have hstore := performs_storeNat (Bits.toNat (Bits.ofInt width value)) width
    rw [Builder.storeNat_eq (Bits.size_le_iff_lt.mpr hlt), hbits] at hstore
    rw [hlow]
    exact hstore

theorem performs_storeSignedWord (word : Int64) (width : Nat) :
    Performs (storeSignedWord word width) (Builder.storeSignedWord word width) := by
  unfold storeSignedWord Builder.storeSignedWord
  refine performs_ite (fun _ => performs_storeInt _ _) fun hw => ?_
  -- the mask is left out at the full width, where the shift would leave the word
  refine performs_refuse fun _ => performs_storeLowBits _ _ width fun i hi => ?_
  split
  · rfl
  · exact Bits.testBit_word_and _ (by omega) hi

theorem performs_storeVarNat (value lengthBits : Nat) :
    Performs (storeVarNat value lengthBits) (Builder.storeVarNat value lengthBits) := by
  unfold storeVarNat Builder.storeVarNat
  refine performs_refuse fun _ => (performs_checkedLength _).bind fun _ => ?_
  refine (performs_ensureFits _ 0).bind fun _ => ?_
  exact (performs_storeWord _ _).bind fun _ => performs_storeNat _ _

/-! ## References and contents -/

theorem performs_storeRef (cell : Cell) : Performs (storeRef cell) (Builder.storeRef cell) := by
  refine (fills_storeRef cell).performs fun b e he => ?_
  rw [Builder.refusal?, List.length_nil, List.length_singleton, if_neg (Nat.not_lt_zero _)] at he
  split at he
  · next hfull =>
    cases he
    have hnone : b.availableRefs = 0 := Nat.lt_one_iff.mp hfull
    have hge : b.refs.length ≥ Cell.maxRefs := Nat.sub_eq_zero_iff_le.mp hnone
    change (if b.refs.length ≥ Cell.maxRefs then throw (.refs 1 0) >>= _ else _ : PackedStore)
      b.pack = _
    rw [if_pos hge, hnone]
    rfl
  · cases he

theorem performs_storeMaybeRef (cell : Option Cell) :
    Performs (storeMaybeRef cell) (Builder.storeMaybeRef cell) := by
  cases cell with
  | none => exact performs_storeBit false
  | some cell =>
    have hbit : Fills (storeBit true) [true] [] := fills_storeBits (by decide) rfl
    exact (hbit.bind (fills_storeRef cell)).performs_ensureFits

/-- Bits of some bytes and references go together. -/
theorem performs_storeContents {data : Bytes} {count : Nat} {bits : Bits} (refs : List Cell)
    (h : count ≤ 8 * data.length) (hbits : (Bits.ofBytes data).take count = bits) :
    Performs (storeContents data count refs) (Builder.append bits refs) := by
  have hlen : bits.length = count := hbits ▸ Bits.length_take_ofBytes h
  have hfills := ((fills_storeBits h hbits).bind (fills_forM_storeRef refs)).atomically
  rw [List.append_nil, List.nil_append] at hfills
  rw [← hlen] at hfills ⊢
  exact hfills.performs_ensureFits

/-- What another value holds goes together. -/
theorem performs_storePacked (bits : Bits) (refs : List Cell) :
    Performs (storeContents (Bits.pack bits) bits.length refs) (Builder.append bits refs) :=
  performs_storeContents refs (by rw [Bits.length_pack]; omega) (Bits.take_ofBytes_pack bits)

theorem performs_storeCell (cell : Cell) : Performs (storeCell cell) (Builder.storeCell cell) :=
  performs_ite (fun _ => performs_throw _) fun _ => performs_storePacked cell.bits cell.refs

theorem performs_storeDictionary (d : Option Dictionary) :
    Performs (storeDictionary d) (Builder.storeDictionary d) :=
  (performs_ofExcept _).bind fun root => performs_storeMaybeRef root.join

/-! ## Cells -/

/-- **The cell of what is stored** is that of its bits. -/
theorem endExoticCell_pack (hb : b.InLimits) (kind : CellKind) :
    b.pack.endExoticCell kind = b.endExoticCell kind := by
  have hlimits : Cell.checkLimits b.bits.length b.refs.length = .ok () :=
    Cell.checkLimits_eq_ok_iff.mpr hb
  have hlen : (b.bits.length + 7) / 8 ≤ (Bits.pack b.bits).length := (Bits.length_pack _).ge
  change (do
    Cell.checkLimits b.bits.length b.refs.length
    Layout.require ((b.bits.length + 7) / 8 ≤ (Bits.pack b.bits).length)
      (.dataTooShort (Bits.pack b.bits).length b.bits.length)
    Cell.make kind ((Bits.ofBytes (Bits.pack b.bits)).take b.bits.length) b.refs) = _
  rw [hlimits, decide_eq_true hlen, Bits.take_ofBytes_pack]
  rfl

/-- The cell of what fits an empty builder. -/
theorem Fills.build (h : Fills packed bits refs)
    (hroom : Builder.empty.canFit bits.length refs.length = true) :
    build packed = Cell.make .ordinary bits refs := by
  have hrun : packed empty = .ok () (Builder.empty.behind bits refs).pack := h .empty hroom
  unfold PackedBuilder.build
  rw [hrun]
  exact endExoticCell_pack (Builder.inLimits_empty.canFit_iff.mp hroom) .ordinary

/-! ## Snakes -/

theorem fills_storeBytes (data : Bytes) : Fills (storeBytes data) (Bits.ofBytes data) [] :=
  fills_storeBits le_rfl (Bits.take_ofBytes_length data)

/-- Whole bytes and references, if they fit. -/
theorem fills_bytes_refs (data : Bytes) (refs : List Cell) :
    Fills (do storeBytes data; refs.forM storeRef) (Bits.ofBytes data) refs := by
  have h := (fills_storeBytes data).bind (fills_forM_storeRef refs)
  rwa [List.append_nil, List.nil_append] at h

theorem length_toList_le (cell : Option Cell) : cell.toList.length ≤ 1 := by
  cases cell <;> simp

/-- A chain of links that are no longer than a cell. -/
theorem chain_eq {links : List Bytes} (h : ∀ link ∈ links, link.length ≤ Snake.linkBytes) :
    chain links = Snake.chain links := by
  induction links with
  | nil => rfl
  | cons link links ih =>
    have hlink : link.length ≤ Cell.maxBits / 8 := h link List.mem_cons_self
    rw [chain, Snake.chain, ih fun l hl => h l (List.mem_cons_of_mem _ hl)]
    congr 1
    funext next
    have hroom : Builder.empty.canFit (Bits.ofBytes link).length next.toList.length = true := by
      have hnext := length_toList_le next
      rw [Builder.canFit_iff, Bits.length_ofBytes, Builder.empty, List.length_nil, List.length_nil,
        Cell.maxRefs]
      omega
    rw [(fills_bytes_refs link next.toList).build hroom]

theorem length_le_of_mem_links {data link : Bytes} (h : link ∈ Snake.links data) :
    link.length ≤ Snake.linkBytes := by
  fun_induction Snake.links data with
  | case1 => cases h
  | case2 data hd ih =>
    rcases List.mem_cons.mp h with rfl | hrest
    · exact List.length_take_le ..
    · exact ih hrest

theorem performs_storeSnake (data : Bytes) :
    Performs (storeSnake data) (Builder.storeSnake data) := by
  intro b hb
  -- both cut the bytes at the room there is
  let head := data.take (min data.length b.availableBytes)
  let tail := data.drop (min data.length b.availableBytes)
  have hhead : head.length = min data.length b.availableBytes :=
    List.length_take_of_le (Nat.min_le_left ..)
  change Matches b ((if tail.isEmpty then storeBytes head else do
      ensureFits (8 * min data.length b.availableBytes) 1
      let next ← ofExcept (chain (Snake.links tail))
      atomically do
        storeBytes head
        next.toList.forM storeRef : PackedStore) b.pack)
    ((if tail.isEmpty then Builder.storeBytes head else do
      Builder.ensureFits (8 * min data.length b.availableBytes) 1
      let next ← ofExcept (Snake.chain (Snake.links tail))
      Builder.append (Bits.ofBytes head) next.toList : Store) b)
  rw [chain_eq fun _ => length_le_of_mem_links, ← hhead]
  refine performs_ite (fun _ => performs_storeBytes head) (fun _ => ?_) b hb
  refine performs_ensureFits_bind fun b hb hroom => ?_
  cases Snake.chain (Snake.links tail) with
  | error e => exact .error e hb.grows
  | ok next =>
    -- there is at most one reference to the rest
    have hfit : b.canFit (Bits.ofBytes head).length next.toList.length = true := by
      have hnext := length_toList_le next
      rw [Builder.canFit_iff] at hroom ⊢
      rw [Bits.length_ofBytes]
      omega
    exact (fills_bytes_refs head next.toList).atomically.matches hb hfit

/-! ## Addresses -/

theorem performs_storeAddress (address : Option Address) :
    Performs (storeAddress address) (Builder.storeAddress address) := by
  cases address with
  | none => exact performs_storeWord 0 2
  | some address =>
    exact (performs_ensureFits _ _).bind fun _ => (performs_storeWord _ _).bind fun _ =>
      (performs_storeBit _).bind fun _ => (performs_storeSignedWord _ _).bind fun _ =>
      performs_storeBytes _

theorem performs_storeExternalAddress (address : ExternalAddress) :
    Performs (storeExternalAddress address) (Builder.storeExternalAddress address) :=
  (performs_checkedLength _).bind fun _ => (performs_ensureFits _ _).bind fun _ =>
    (performs_storeWord _ _).bind fun _ => (performs_storeWord _ _).bind fun _ =>
    performs_storeBits _ _

end PackedBuilder
end BagOfCells
