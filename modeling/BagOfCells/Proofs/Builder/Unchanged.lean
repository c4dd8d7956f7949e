import BagOfCells.Proofs.Builder.History
import BagOfCells.Schema.Store

/-!
# Stores that fail

A store of several parts is put together so that it fails before its first part or not at all: it
looks whether there is room for all of them, or takes back what it has put down. So a store that
fails leaves a builder as it was, the store of an external address excepted. What it looks at are
its arguments and the room, so arguments in their range are stored wherever their bits and
references fit.

## Main definitions

* `Builder.Looks step`: a step leaves the builder alone
* `Builder.Keeps store`: a store that fails leaves the builder as it was
* `Builder.Enlarges store`: what a store leaves holds what was there
* `StoreCall.InRange`, `StoreCall.size`: arguments that can be stored, and the room they take
* `StoreOp`: a call, a record, or what another builder holds after some stores

## Main results

* `StoreCall.keeps`, `StoreOp.keeps`: each store
* `StoreCall.run_inRange`: arguments in range are stored where they fit
* `Snake.exists_chain`: chains of fewer than 65536 cells are there
* `StoreOp.history_keeps`: after any stores
-/

namespace BagOfCells

open Outcome

namespace Builder

variable {α : Type} {store : Store} {bits : Bits} {refs : List Cell}

/-! ## Stores that leave the builder as it was -/

/-- A step that leaves the builder alone, whether it succeeds or not. -/
def Looks (step : EStateM CellError Builder α) : Prop :=
  ∀ b, (∃ a, step b = .ok a b) ∨ ∃ e, step b = .error e b

/-- A store that fails leaves the builder as it was. -/
def Keeps (store : Store) : Prop :=
  ∀ b c : Builder, ∀ e, b.InLimits → store b = .error e c → c = b

theorem looks_ensureFits (bits refs : Nat) : Looks (ensureFits bits refs) := by
  intro b
  unfold ensureFits
  cases b.refusal? bits refs with
  | none => exact .inl ⟨(), rfl⟩
  | some e => exact .inr ⟨e, rfl⟩

theorem looks_ofExcept (x : Except CellError α) : Looks (ofExcept x) := by
  intro b
  cases x with
  | ok a => exact .inl ⟨a, rfl⟩
  | error e => exact .inr ⟨e, rfl⟩

theorem keeps_throw (e : CellError) : Keeps (throw e) := by
  rintro b c e' - ⟨⟩
  rfl

theorem keeps_pure : Keeps (pure ()) :=
  fun _ _ _ _ h => nomatch h

theorem keeps_append (bits : Bits) (refs : List Cell) : Keeps (append bits refs) := by
  intro b c e _ h
  unfold append at h
  split at h
  · cases h
    rfl
  · cases h

theorem keeps_atomically (store : Store) : Keeps (atomically store) := by
  intro b c e _ h
  unfold atomically at h
  split at h
  · cases h
  · cases h
    rfl

/-- A look in front changes nothing. -/
theorem Looks.bind {step : EStateM CellError Builder α} {next : α → Store} (hl : Looks step)
    (hn : ∀ a, Keeps (next a)) : Keeps (step >>= next) := by
  intro b c e hb h
  rcases hl b with ⟨a, hstep⟩ | ⟨e', hstep⟩
  · rw [run_bind_of_ok hstep] at h
    exact hn a b c e hb h
  · rw [run_bind_of_error hstep] at h
    cases h
    rfl

theorem keeps_ite {condition : Prop} [Decidable condition] {store' : Store}
    (h : condition → Keeps store) (h' : ¬ condition → Keeps store') :
    Keeps (if condition then store else store') := by
  split
  · next hc => exact h hc
  · next hc => exact h' hc

theorem keeps_refuse {condition : Prop} [Decidable condition] {e : CellError}
    {next : Unit → Store} (h : ¬ condition → Keeps (next ())) :
    Keeps (if condition then throw e >>= next else next ()) :=
  keeps_ite (fun _ b c e' _ h => by cases h; rfl) h

theorem keeps_checkedLength {n : Nat} {next : Nat → Store} (h : Keeps (next n)) :
    Keeps (checkedLength n >>= next) := by
  unfold BagOfCells.checkedLength
  split
  · exact h
  · rintro b c e - ⟨⟩
    rfl

/-- **Several parts** behind a look for room for all of them do not fail at any. -/
theorem keeps_of_puts (h : Puts store bits refs) {n m : Nat} (hbits : n = bits.length)
    (hrefs : m = refs.length) : Keeps (do ensureFits n m; store) := by
  subst hbits hrefs
  intro b c e hb hstore
  cases hroom : b.refusal? bits.length refs.length with
  | some e' =>
    have hensure : ensureFits bits.length refs.length b = .error e' b := by
      simp only [ensureFits, hroom]
    rw [run_bind_of_error hensure] at hstore
    cases hstore
    rfl
  | none =>
    have hensure : ensureFits bits.length refs.length b = .ok () b := by
      simp only [ensureFits, hroom]
    rw [run_bind_of_ok hensure, (h b _ hb).mpr ⟨refusal?_eq_none_iff.mp hroom, rfl⟩] at hstore
    cases hstore

/-! ### Each store -/

theorem keeps_storeBits (data : Bytes) (count : Nat) : Keeps (storeBits data count) :=
  (looks_ensureFits count 0).bind fun _ => keeps_refuse fun _ => keeps_append _ _

theorem keeps_storeNat (value width : Nat) : Keeps (storeNat value width) := by
  unfold storeNat
  exact keeps_refuse fun _ => (looks_ensureFits _ _).bind fun _ => keeps_append _ _

theorem keeps_storeInt (value : Int) (width : Nat) : Keeps (storeInt value width) := by
  unfold storeInt
  refine keeps_ite (fun _ => keeps_ite (fun _ => keeps_throw _) fun _ => keeps_pure) fun _ => ?_
  exact keeps_refuse fun _ => (looks_ensureFits _ _).bind fun _ => keeps_append _ _

theorem keeps_storeLowBits (word : UInt64) (width : Nat) : Keeps (storeLowBits word width) := by
  unfold storeLowBits
  exact keeps_refuse fun _ => keeps_append _ _

theorem keeps_storeWord (word : UInt64) (width : Nat) : Keeps (storeWord word width) := by
  unfold storeWord
  exact keeps_ite (fun _ => keeps_storeNat _ _) fun _ =>
    keeps_refuse fun _ => keeps_storeLowBits _ _

theorem keeps_storeSignedWord (word : Int64) (width : Nat) :
    Keeps (storeSignedWord word width) := by
  unfold storeSignedWord
  exact keeps_ite (fun _ => keeps_storeInt _ _) fun _ =>
    keeps_refuse fun _ => keeps_storeLowBits _ _

theorem keeps_storeVarNat (value lengthBits : Nat) : Keeps (storeVarNat value lengthBits) := by
  unfold storeVarNat
  refine keeps_refuse fun h => keeps_checkedLength ?_
  rw [length_gt_iff, not_not] at h
  exact keeps_of_puts (puts_varNat rfl h) (length_varNat ..) rfl

theorem keeps_storeMaybeRef (target : Option Cell) : Keeps (storeMaybeRef target) := by
  cases target with
  | none => exact keeps_append _ _
  | some cell => exact keeps_append _ _

theorem keeps_storeSnake (data : Bytes) : Keeps (storeSnake data) := by
  have hget : Looks (get : EStateM CellError Builder Builder) := fun b => .inl ⟨b, rfl⟩
  refine hget.bind fun b => ?_
  refine keeps_ite (fun _ => keeps_append _ _) fun _ => ?_
  exact (looks_ensureFits _ _).bind fun _ => (looks_ofExcept _).bind fun _ => keeps_append _ _

theorem keeps_storeAddress (address : Option Address) : Keeps (storeAddress address) := by
  cases address with
  | none => exact keeps_storeWord 0 2
  | some address => exact keeps_of_puts (puts_addressParts address) (length_address address) rfl

end Builder

namespace StoreCall

open Builder

/-! ## Calls -/

/-- Whether a call is that of an external address. -/
def isExternal : StoreCall → Bool
  | .externalAddress _ => true
  | _ => false

/-- **Each call** but one leaves the builder as it was if it fails. -/
theorem keeps {call : StoreCall} (h : call.isExternal = false) : Keeps call.store := by
  cases call with
  | bit value => exact keeps_append _ _
  | bits data count => exact keeps_storeBits data count
  | zeroes count => exact (looks_ensureFits count 0).bind fun _ => keeps_append _ _
  | byte value => exact keeps_append _ _
  | bytes data => exact keeps_append _ _
  | field size value => exact keeps_append _ _
  | lowBits value width => exact keeps_storeLowBits value width
  | word value width => exact keeps_storeWord value width
  | signedWord value width => exact keeps_storeSignedWord value width
  | nat value width => exact keeps_storeNat value width
  | int value width => exact keeps_storeInt value width
  | varNat value lengthBits => exact keeps_storeVarNat value lengthBits
  | ref target => exact keeps_append _ _
  | maybeRef target => exact keeps_storeMaybeRef target
  | dictionary d => exact (looks_ofExcept _).bind fun root => keeps_storeMaybeRef root.join
  | cell source => exact keeps_ite (fun _ => keeps_throw _) fun _ => keeps_append _ _
  | slice source => exact keeps_append _ _
  | builder calls => exact keeps_append _ _
  | snake data => exact keeps_storeSnake data
  | address value => exact keeps_storeAddress value
  | externalAddress value => cases h

end StoreCall

/-! ## Chains that are short enough -/

/-- An ordinary cell over references that are not too deep is made, and is as deep as these say. -/
theorem Cell.exists_make {bits : Bits} {refs : List Cell} {depth : Nat}
    (hbits : bits.length ≤ maxBits) (hrefs : refs.length ≤ maxRefs)
    (hdeep : ∀ level, depthOver refs level ≤ depth) (hdepth : depth ≤ maxDepth) :
    ∃ cell, make .ordinary bits refs = .ok cell ∧ ∀ level, cell.depthAt level ≤ depth := by
  rcases make_ordinary_or_overdeep hbits hrefs with ⟨cell, hmake, -⟩ | ⟨-, hover⟩
  · have hk : cell.kind ≠ .prunedBranch := by
      rw [kind_make hmake]
      nofun
    refine ⟨cell, hmake, fun level => ?_⟩
    rw [(sound_of_make hmake).depthAt_eq hk, refs_make hmake]
    exact hdeep _
  · obtain ⟨level, -, hlarge⟩ := overdeep_iff.mp hover
    exact absurd ((hdeep _).trans hdepth) hlarge.not_ge

namespace Snake

theorem depthOver_toList_le {next : Option Cell} {depth : Nat}
    (h : ∀ cell ∈ next, ∀ level, cell.depthAt level < depth) (level : Nat) :
    Cell.depthOver next.toList level ≤ depth := by
  cases next with
  | none => exact Nat.zero_le _
  | some cell =>
    have hcell := h cell rfl level
    simp only [Cell.depthOver, Option.toList_some, List.cons_ne_nil, if_false, List.map_cons,
      List.map_nil, List.foldr_cons, List.foldr_nil]
    omega

/-- **A chain** of fewer than 65536 cells is there: none of them is as deep as they are many. -/
theorem exists_chain {links : List Bytes} (h : ∀ link ∈ links, link.length ≤ linkBytes)
    (hshort : links.length < 65536) :
    ∃ next, chain links = .ok next ∧ ∀ cell ∈ next,
      ∀ level, cell.depthAt level < links.length := by
  induction links with
  | nil => exact ⟨none, rfl, nofun⟩
  | cons link links ih =>
    rw [List.length_cons] at hshort ⊢
    obtain ⟨next, hnext, hcells⟩ := ih (fun l hl => h l (List.mem_cons_of_mem _ hl))
      (by omega)
    have hlink : link.length ≤ Cell.maxBits / 8 := h link List.mem_cons_self
    have hbits : (Bits.ofBytes link).length ≤ Cell.maxBits := by
      rw [Bits.length_ofBytes]
      omega
    have hrefs : next.toList.length ≤ Cell.maxRefs :=
      (PackedBuilder.length_toList_le next).trans (by decide)
    obtain ⟨cell, hmake, hdepth⟩ := Cell.exists_make hbits hrefs (depthOver_toList_le hcells)
      (Nat.le_of_lt_succ (Nat.lt_of_succ_lt hshort))
    refine ⟨some cell, ?_, ?_⟩
    · rw [chain, hnext]
      simp only [bind, Except.bind, hmake, pure, Except.pure]
    · rintro _ ⟨⟩ level
      exact Nat.lt_succ_of_le (hdepth level)

end Snake

namespace StoreCall

open Builder

/-! ## Arguments in range -/

/-- A number of a width in two's complement. -/
def InSignedRange (value : Int) : (width : Nat) → Prop
  | 0 => value = 0
  | width + 1 => -2 ^ width ≤ value ∧ value < 2 ^ width

theorem inSignedRange_iff {value : Int} {width : Nat} :
    InSignedRange value width ↔ Bits.signedSize value ≤ width := by
  cases width with
  | zero => exact Bits.signedSize_le_zero_iff.symm
  | succ width => exact Bits.signedSize_le_iff.symm

/-- The arguments of a call are such as can be stored, where `room` whole bytes still fit: data are
long enough, numbers keep to their width, a number of variable length keeps to the field of its
length, a cell is ordinary, and a snake goes on in fewer than 65536 cells. Nothing is said of
dictionaries and external addresses. -/
def InRange (room : Nat) : StoreCall → Prop
  | .bits data count => count ≤ 8 * data.length
  | .lowBits _ width => width ≤ 64
  | .word value width => value.toNat < 2 ^ width
  | .signedWord value width => InSignedRange value.toInt width
  | .nat value width => value < 2 ^ width
  | .int value width => InSignedRange value width
  | .varNat value lengthBits => (Bits.size value + 7) / 8 < 2 ^ lengthBits
  | .cell source => source.isExotic = false
  | .snake data => (Snake.links (data.drop room)).length < 65536
  | .dictionary _ | .externalAddress _ => False
  | .bit _ | .zeroes _ | .byte _ | .bytes _ | .field _ _ | .ref _ | .maybeRef _ | .slice _
  | .builder _ | .address _ => True

/-- How many bits and references the arguments of a call take up, where `room` whole bytes still
fit. -/
def size (room : Nat) : StoreCall → Nat × Nat
  | .bit _ => (1, 0)
  | .bits _ count | .zeroes count => (count, 0)
  | .byte _ => (8, 0)
  | .bytes data => (8 * data.length, 0)
  | .field size _ => (8 * size, 0)
  | .lowBits _ width | .word _ width | .signedWord _ width | .nat _ width | .int _ width =>
    (width, 0)
  | .varNat value lengthBits => (lengthBits + 8 * ((Bits.size value + 7) / 8), 0)
  | .ref _ => (0, 1)
  | .maybeRef target => (1, target.toList.length)
  | .dictionary d => (1, d.toList.length)
  | .cell source => (source.bits.length, source.refs.length)
  | .slice source => (source.bits.length, source.refs.length)
  | .builder calls => ((history calls).length, (history calls).refs.length)
  | .snake data => (8 * min data.length room, if data.length ≤ room then 0 else 1)
  | .address none => (2, 0)
  | .address (some _) => (Address.width, 0)
  | .externalAddress value => (11 + value.length, 0)

/-- **Arguments in range** that fit have an encoding of their size. -/
theorem exists_encoding {call : StoreCall} {b : Builder} (h : call.InRange b.availableBytes)
    (hroom : b.canFit (call.size b.availableBytes).1 (call.size b.availableBytes).2 = true) :
    ∃ bits refs, call.encoding b.availableBytes = some (bits, refs) ∧
      bits.length = (call.size b.availableBytes).1 ∧
      refs.length = (call.size b.availableBytes).2 := by
  cases call with
  | bits data count => exact ⟨_, _, if_pos h, Bits.length_take_ofBytes h, rfl⟩
  | lowBits value width => exact ⟨_, _, if_pos h, Bits.length_ofNat .., rfl⟩
  | word value width =>
    exact ⟨_, _, if_pos (Bits.size_le_iff_lt.mpr h), Bits.length_ofNat .., rfl⟩
  | nat value width =>
    exact ⟨_, _, if_pos (Bits.size_le_iff_lt.mpr h), Bits.length_ofNat .., rfl⟩
  | signedWord value width =>
    exact ⟨_, _, if_pos (inSignedRange_iff.mp h), Bits.length_ofInt .., rfl⟩
  | int value width =>
    exact ⟨_, _, if_pos (inSignedRange_iff.mp h), Bits.length_ofInt .., rfl⟩
  | varNat value lengthBits =>
    -- a number of more bytes than sixteen bits count would not fit
    have hsmall : (Bits.size value + 7) / 8 < 2 ^ 16 := by
      have hle := (canFit_iff.mp hroom).1
      change lengthBits + 8 * ((Bits.size value + 7) / 8) ≤ Cell.maxBits - b.bits.length at hle
      rw [Cell.maxBits] at hle
      omega
    have hsize : Bits.size ((Bits.size value + 7) / 8) ≤ min lengthBits 16 :=
      Nat.le_min.mpr ⟨Bits.size_le_iff_lt.mpr h, Bits.size_le_iff_lt.mpr hsmall⟩
    exact ⟨_, _, if_pos hsize, (length_varNat value lengthBits _).symm, rfl⟩
  | cell source => exact ⟨_, _, if_neg (by rw [h]; exact Bool.false_ne_true), rfl, rfl⟩
  | snake data =>
    obtain ⟨next, hnext, -⟩ :=
      Snake.exists_chain (fun _ => PackedBuilder.length_le_of_mem_links) h
    refine ⟨Bits.ofBytes (data.take b.availableBytes), next.toList, ?_, ?_, ?_⟩
    · simp only [encoding, hnext, Except.toOption, bind, Option.bind, pure]
    · rw [Bits.length_ofBytes, List.length_take, Nat.min_comm]
      rfl
    · change _ = if data.length ≤ b.availableBytes then 0 else 1
      split
      · next hle =>
        rw [List.drop_of_length_le hle, Snake.links] at hnext
        cases hnext
        rfl
      · next hgt =>
        refine length_toList_chain ?_ hnext
        rw [List.isEmpty_iff, List.drop_eq_nil_iff]
        exact hgt
  | builder calls =>
    refine ⟨_, _, rfl, ?_, rfl⟩
    change (history calls).bits.length = (history calls).length
    rw [history_eq, PackedBuilder.bits_pack]
    rfl
  | address value =>
    cases value with
    | none => exact ⟨_, _, rfl, rfl, rfl⟩
    | some address => exact ⟨_, _, rfl, (length_address address).symm, rfl⟩
  | bit value => exact ⟨_, _, rfl, rfl, rfl⟩
  | zeroes count => exact ⟨_, _, rfl, List.length_replicate, rfl⟩
  | byte value => exact ⟨_, _, rfl, Bits.length_ofNat .., rfl⟩
  | bytes data => exact ⟨_, _, rfl, Bits.length_ofBytes .., rfl⟩
  | field size value => exact ⟨_, _, rfl, Bits.length_ofNat .., rfl⟩
  | ref target => exact ⟨_, _, rfl, rfl, rfl⟩
  | maybeRef target => exact ⟨_, _, rfl, rfl, rfl⟩
  | slice source => exact ⟨_, _, rfl, rfl, rfl⟩
  | dictionary d => cases h
  | externalAddress value => cases h

/-- **Arguments in range** are stored wherever they fit. -/
theorem run_inRange {call : StoreCall} {b : Builder} (hb : b.InLimits)
    (h : call.InRange b.availableBytes)
    (hroom : b.canFit (call.size b.availableBytes).1 (call.size b.availableBytes).2 = true) :
    ∃ c : Builder, call.run b.pack = .ok () c.pack ∧
      c.bits.length = b.bits.length + (call.size b.availableBytes).1 ∧
      c.refs.length = b.refs.length + (call.size b.availableBytes).2 := by
  obtain ⟨bits, refs, hencoding, hbits, hrefs⟩ := exists_encoding h hroom
  rw [← hbits, ← hrefs] at hroom ⊢
  have hstore := (encodes call b _ hb).mpr ⟨bits, refs, hencoding, hroom, rfl⟩
  have hrun := ((performs call).eq_ok_iff hb).mpr ⟨_, hstore, rfl⟩
  exact ⟨b.behind bits refs, hrun, List.length_append, List.length_append⟩

end StoreCall

/-! ## Records -/

namespace Builder

variable {α β : Type}

/-- What a step leaves of a builder within limits is one within limits that holds what was there. -/
def Enlarges (step : EStateM CellError Builder α) : Prop :=
  ∀ b : Builder, b.InLimits → match step b with
    | .ok _ c => b.Grows c
    | .error _ c => b.Grows c

theorem enlarges_of_performs {packed : EStateM CellError PackedBuilder α}
    {step : EStateM CellError Builder α} (h : PackedBuilder.Performs packed step) :
    Enlarges step := by
  intro b hb
  have hmatches := h b hb
  generalize packed b.pack = r, step b = r' at hmatches
  cases hmatches with
  | ok _ hgrows => exact hgrows
  | error _ hgrows => exact hgrows

theorem enlarges_throw (e : CellError) : Enlarges (throw e : EStateM CellError Builder α) :=
  fun _ hb => hb.grows

theorem enlarges_pure (a : α) : Enlarges (pure a) :=
  fun _ hb => hb.grows

theorem Enlarges.bind {step : EStateM CellError Builder α} {next : α → EStateM CellError Builder β}
    (hs : Enlarges step) (hn : ∀ a, Enlarges (next a)) : Enlarges (step >>= next) := by
  intro b hb
  have hstep := hs b hb
  cases h : step b with
  | error e c =>
    rw [h] at hstep
    rw [run_bind_of_error h]
    exact hstep
  | ok a c =>
    rw [h] at hstep
    rw [run_bind_of_ok h]
    have hnext := hn a c hstep.inLimits
    cases h' : next a c with
    | ok _ d =>
      rw [h'] at hnext
      exact hstep.trans hnext
    | error _ d =>
      rw [h'] at hnext
      exact hstep.trans hnext

theorem enlarges_ofExcept (x : Except CellError α) : Enlarges (ofExcept x) :=
  enlarges_of_performs (PackedBuilder.performs_ofExcept x)

theorem Enlarges.atomically {store : Store} (h : Enlarges store) : Enlarges (atomically store) := by
  intro b hb
  have hstore := h b hb
  unfold Builder.atomically
  cases hb' : store b with
  | ok _ c =>
    rw [hb'] at hstore
    exact hstore
  | error e c => exact hb.grows

theorem enlarges_storeEither (payload : Cell) : Enlarges (storeEither payload) := by
  have hget : Enlarges (get : EStateM CellError Builder Builder) := fun _ hb => hb.grows
  refine hget.bind fun b => ?_
  split
  · exact (enlarges_of_performs (PackedBuilder.performs_storeBit false)).bind fun _ =>
      enlarges_of_performs (PackedBuilder.performs_storeCell payload)
  · exact enlarges_of_performs (PackedBuilder.performs_storeMaybeRef (some payload))

end Builder

open Builder PackedBuilder in
mutual

/-- The store of a field enlarges a builder. -/
theorem FieldTag.enlarges_store (name : String) :
    ∀ (tag : FieldTag) (value : Value), Enlarges (tag.store name value)
  | .uint width, value => by
    cases value with
    | uint v => exact enlarges_of_performs (performs_storeNat v width)
    | _ => exact enlarges_throw _
  | .int width, value => by
    cases value with
    | int v => exact enlarges_of_performs (performs_storeInt v width)
    | _ => exact enlarges_throw _
  | .bits width, value => by
    cases value with
    | bits data =>
      rw [FieldTag.store]
      split
      · exact enlarges_throw _
      · exact enlarges_of_performs (performs_storeBits data width)
    | _ => exact enlarges_throw _
  | .bool, value => by
    cases value with
    | bool b => exact enlarges_of_performs (performs_storeBit b)
    | _ => exact enlarges_throw _
  | .coins, value => by
    cases value with
    | coins v => exact enlarges_of_performs (performs_storeVarNat v 4)
    | uint v => exact enlarges_of_performs (performs_storeVarNat v 4)
    | _ => exact enlarges_throw _
  | .address, value => by
    cases value with
    | address a => exact enlarges_of_performs (performs_storeAddress a)
    | none => exact enlarges_of_performs (performs_storeAddress none)
    | _ => exact enlarges_throw _
  | .magic constant width, _ => enlarges_of_performs (performs_storeWord constant width)
  | .ref payload, value =>
    (enlarges_ofExcept (payload.toCell name value)).bind fun cell =>
      enlarges_of_performs (performs_storeRef cell)
  | .inline payload, value => Payload.enlarges_storeInline name payload value
  | .either payload, value =>
    (enlarges_ofExcept (payload.toCell name value)).bind fun cell => enlarges_storeEither cell
  | .maybe inner, value => by
    have hbit (bit : Bool) := enlarges_of_performs (performs_storeBit bit)
    have hinner := FieldTag.enlarges_store name inner value
    cases value with
    | none => exact hbit false
    | _ => exact (hbit true).bind fun _ => hinner
  | .dict width, value => by
    cases value with
    | dict d =>
      rw [FieldTag.store]
      split
      · exact enlarges_throw _
      · exact enlarges_of_performs (performs_storeDictionary d)
    | none => exact enlarges_of_performs (performs_storeDictionary none)
    | _ => exact enlarges_throw _

/-- So does that of what a payload holds. -/
theorem Payload.enlarges_storeInline (name : String) :
    ∀ (payload : Payload) (value : Value), Enlarges (payload.storeInline name value)
  | .cell, value => by
    cases value with
    | cell cell => exact enlarges_of_performs (performs_storeCell cell)
    | _ => exact enlarges_throw _
  | .record schema, value => by
    cases value with
    | record record => exact (Schema.enlarges_storeFields schema record).atomically
    | _ => exact enlarges_throw _

/-- And that of all fields. -/
theorem Schema.enlarges_storeFields :
    ∀ (schema : Schema) (record : Record), Enlarges (schema.storeFields record)
  | .nil, _ => enlarges_pure ()
  | .cons name tag rest, record => by
    have hrest := Schema.enlarges_storeFields rest record
    rw [Schema.storeFields]
    split
    · next value width _ =>
      exact (enlarges_of_performs (performs_storeWord value width)).bind fun _ => hrest
    · split
      · next value _ => exact (FieldTag.enlarges_store name tag value).bind fun _ => hrest
      · exact (enlarges_throw _).bind fun _ => hrest

end

/-! ## Histories -/

/-- A store: a call, a record, or what another builder holds after some stores. -/
inductive StoreOp where
  | call (c : StoreCall)
  | record (schema : Schema) (fields : Record)
  | builder (ops : List StoreOp)

namespace StoreOp

open Builder PackedBuilder

mutual

/-- What a store does to a builder. -/
def run : StoreOp → PackedStore
  | .call c => c.run
  | .record schema fields => onBits (schema.store fields)
  | .builder ops => storeBuilder (runAll ops .empty)

/-- What some stores leave of a builder. -/
def runAll : List StoreOp → PackedBuilder → PackedBuilder
  | [], b => b
  | op :: ops, b => runAll ops (StoreCall.left op.run b)

end

/-- What some stores leave of an empty builder. -/
def history (ops : List StoreOp) : PackedBuilder := runAll ops .empty

mutual

/-- What a store does to a builder that does not pack its bits. -/
def store : StoreOp → Store
  | .call c => c.store
  | .record schema fields => schema.store fields
  | .builder ops => Builder.storeBuilder (storeAll ops .empty)

/-- What some stores leave of a builder that does not pack its bits. -/
def storeAll : List StoreOp → Builder → Builder
  | [], b => b
  | op :: ops, b => storeAll ops (StoreCall.left op.store b)

end

/-- A store on the bits is what it is, packed. -/
theorem performs_onBits {store : Store} (h : Enlarges store) : Performs (onBits store) store := by
  intro b hb
  have hextends := h b hb
  unfold onBits
  rw [unpack_pack]
  cases hstore : store b with
  | ok _ c =>
    rw [hstore] at hextends
    exact .ok () hextends
  | error e c =>
    rw [hstore] at hextends
    exact .error e hextends

mutual

/-- **Each store** does to the bytes of a builder what it does to its bits. -/
theorem performs (op : StoreOp) : Performs op.run op.store := by
  cases op with
  | call c => exact c.performs
  | record schema fields =>
    exact performs_onBits (Schema.enlarges_storeFields schema fields).atomically
  | builder ops =>
    change Performs (storeBuilder (runAll ops Builder.empty.pack)) _
    rw [(runAll_pack ops inLimits_empty).1]
    exact performs_storePacked _ _

/-- **Stores one after the other** leave the packed form of what they leave of the bits. -/
theorem runAll_pack (ops : List StoreOp) {b : Builder} (hb : b.InLimits) :
    runAll ops b.pack = (storeAll ops b).pack ∧ b.Grows (storeAll ops b) := by
  cases ops with
  | nil => exact ⟨rfl, hb.grows⟩
  | cons op ops =>
    obtain ⟨hleft, hgrows⟩ := StoreCall.left_pack (performs op) hb
    obtain ⟨hall, hgrows'⟩ := runAll_pack ops hgrows.inLimits
    rw [runAll, storeAll, hleft]
    exact ⟨hall, hgrows.trans hgrows'⟩

end

/-- What is known of a builder after some stores. -/
theorem exists_history (ops : List StoreOp) :
    ∃ b : Builder, b.InLimits ∧ history ops = b.pack := by
  obtain ⟨heq, hgrows⟩ := runAll_pack ops inLimits_empty
  exact ⟨storeAll ops .empty, hgrows.inLimits, heq⟩

/-- Whether a store is that of an external address. -/
def isExternal : StoreOp → Bool
  | .call c => c.isExternal
  | .record _ _ | .builder _ => false

/-- **Each store** but one leaves the builder as it was if it fails. -/
theorem keeps {op : StoreOp} (h : op.isExternal = false) : Keeps op.store := by
  cases op with
  | call c => exact StoreCall.keeps h
  | record schema fields => exact keeps_atomically _
  | builder ops => exact keeps_append _ _

/-- So do the bytes. -/
theorem run_eq_error {op : StoreOp} (h : op.isExternal = false) {b : Builder} (hb : b.InLimits)
    {e : CellError} {c : PackedBuilder} (hrun : op.run b.pack = .error e c) : c = b.pack := by
  obtain ⟨d, hstore, rfl⟩ := ((performs op).eq_error_iff hb).mp hrun
  rw [keeps h b _ e hb hstore]

/-- **Stores that fail change nothing.** After any stores, whether they failed or not, a store that
fails leaves the bytes, their length and the references of a builder as they were, unless it is that
of an external address. Arguments in range are stored where their bits and references fit, and take
up no more room than these, and so is what another builder holds. -/
theorem history_keeps (ops : List StoreOp) :
    let b := history ops
    (∀ op : StoreOp, op.isExternal = false → ∀ e c, op.run b = .error e c → c = b) ∧
    (∀ call : StoreCall, call.InRange b.availableBytes →
      b.canFit (call.size b.availableBytes).1 (call.size b.availableBytes).2 = true →
      ∃ c, call.run b = .ok () c ∧ c.length = b.length + (call.size b.availableBytes).1 ∧
        c.refs.length = b.refs.length + (call.size b.availableBytes).2) ∧
    ∀ other : List StoreOp, b.canFit (history other).length (history other).refs.length = true →
      ∃ c, (StoreOp.builder other).run b = .ok () c ∧
        c.length = b.length + (history other).length ∧
        c.refs.length = b.refs.length + (history other).refs.length := by
  obtain ⟨b, hb, heq⟩ := exists_history ops
  dsimp only
  rw [heq]
  refine ⟨fun op h e c hrun => run_eq_error h hb hrun, fun call hrange hroom => ?_,
    fun other hroom => ?_⟩
  · obtain ⟨c, hrun, hbits, hrefs⟩ := StoreCall.run_inRange hb hrange hroom
    exact ⟨c.pack, hrun, hbits, hrefs⟩
  · obtain ⟨d, -, hd⟩ := exists_history other
    rw [hd] at hroom ⊢
    change ∃ c, storeBuilder (history other) b.pack = .ok () c ∧ _
    have happend : append d.bits d.refs b = .ok () (b.behind d.bits d.refs) :=
      append_eq_ok_iff.mpr ⟨hroom, rfl⟩
    rw [hd]
    have hrun := ((performs_storePacked d.bits d.refs).eq_ok_iff hb).mpr ⟨_, happend, rfl⟩
    exact ⟨_, hrun, List.length_append, List.length_append⟩

end StoreOp

end BagOfCells
