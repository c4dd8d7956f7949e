import BagOfCells.Proofs.Builder.Packed
import BagOfCells.Proofs.Dictionary.Grammar
import BagOfCells.Proofs.Slice.Position
import BagOfCells.Slice.Call

/-!
# Loads on bytes and loads on bits

A load on a packed slice does with the positions what the load of the same name does with the rest
that is left: it gives the same value or the same error, and has then read as much. This holds of
one load after another, so it is shown for each load by that of the loads it is made of.

## Main definitions

* `PackedSlice.Follows bounded packed load`: the two do the same, and refuse what they do not give
* `PackedSlice.Fresh`, `PackedSlice.rebuild`: whether the cell of the slice serves for what is left,
  and the cell that is made of it otherwise
* `LoadCall.runOnBits`: what a call does to the rest that is left

## Main results

* `PackedSlice.Follows.bind`: one load after the other
* `PackedSlice.follows_loadBits` and its like: each load
* `LoadCall.follows`: each call
-/

namespace BagOfCells

open Outcome

namespace Slice

theorem skipBits_eq (n : Nat) (s : Slice) :
    skipBits n s =
      if n ≤ s.bits.length then .ok () { s with bits := s.bits.drop n }
      else .error (.underflow n s.bits.length) s := by
  have hensure := ensureBits_eq n s
  split
  · next h =>
    rw [if_pos h] at hensure
    rw [skipBits, run_bind_of_ok hensure]
    rfl
  · next h =>
    rw [if_neg h] at hensure
    exact run_bind_of_error hensure

/-- A machine word of some bits is a number of these bits. -/
theorem toNat_lt_of_loadWord {width : Nat} {s s' : Slice} {word : UInt64}
    (h : loadWord width s = .ok word s') : word.toNat < 2 ^ width := by
  rcases Nat.lt_or_ge 64 width with hw | hw
  · rw [loadWord, peekWord, if_pos hw] at h
    cases h
  · rw [loadWord_eq hw, run_bind_eq_ok_iff] at h
    obtain ⟨bits, s'', hbits, hword⟩ := h
    obtain ⟨bits', -, hl, rfl⟩ := ((accepts_bits width).ok_iff _ _ _).mp hbits
    cases hword
    have hlt := Bits.toNat_lt bits
    rw [hl] at hlt
    rwa [Bits.toNat_toWord (hl ▸ hw)]

theorem peekRef_of_some {s : Slice} {index : Nat} {ref : Cell} (h : s.refs[index]? = some ref) :
    peekRef index s = .ok ref s := by
  have hget : (get : Load Slice) s = .ok s s := rfl
  rw [peekRef, run_bind_of_ok hget, h]
  rfl

theorem peekRef_of_none {s : Slice} {index : Nat} (h : s.refs[index]? = none) :
    peekRef index s = .error (.referenceOutOfRange index s.refs.length) s := by
  have hget : (get : Load Slice) s = .ok s s := rfl
  rw [peekRef, run_bind_of_ok hget, h]
  rfl

end Slice

namespace PackedSlice

variable {α β : Type}

variable {s t : PackedSlice} {n : Nat} {load : PackedLoad α} {value : Bits → α}

/-! ## The same outcome -/

/-- The outcome on the positions is that on the rest that is left; the positions have not moved
back, and, for bounded arguments, what is not given is refused. -/
inductive Matches (bounded : Prop) (s : PackedSlice) :
    EStateM.Result CellError PackedSlice α → EStateM.Result CellError Slice α → Prop where
  | ok (a : α) {t : PackedSlice} (h : s.Ahead t) : Matches bounded s (.ok a t) (.ok a t.unpack)
  | error {e : CellError} {t : PackedSlice} (h : s.Ahead t) (he : bounded → e.isRefusal = true) :
    Matches bounded s (.error e t) (.error e t.unpack)

/-- Wherever the positions are within a cell, a load does with them what another one does with the
rest that is left. -/
def Follows (bounded : Prop) (packed : PackedLoad α) (load : Load α) : Prop :=
  ∀ s : PackedSlice, s.WellFormed → Matches bounded s (packed s) (load s.unpack)

variable {bounded bounded' : Prop} {packed : PackedLoad α} {bitwise : Load α}

theorem Matches.trans {r : EStateM.Result CellError PackedSlice α}
    {r' : EStateM.Result CellError Slice α} (hst : s.Ahead t) (h : Matches bounded t r r') :
    Matches bounded s r r' := by
  cases h with
  | ok a h => exact .ok a (hst.trans h)
  | error h he => exact .error (hst.trans h) he

theorem follows_pure (a : α) : Follows bounded (pure a) (pure a) :=
  fun _ hs => .ok a hs.ahead

/-- One after the other, where the second one is run on what the first one leaves. -/
theorem Follows.bind_of {next : α → PackedLoad β} {next' : α → Load β}
    (h : Follows bounded packed bitwise)
    (hn : ∀ (s : PackedSlice) a c, s.WellFormed → bitwise s.unpack = .ok a c →
      Follows bounded (next a) (next' a)) :
    Follows bounded (packed >>= next) (bitwise >>= next') := by
  intro s hs
  have hmatches := h s hs
  generalize hp : packed s = r, hb : bitwise s.unpack = r' at hmatches
  cases hmatches with
  | ok a hahead =>
    rw [run_bind_of_ok hp, run_bind_of_ok hb]
    exact (hn s a _ hs hb _ hahead.wellFormed).trans hahead
  | error hahead he =>
    rw [run_bind_of_error hp, run_bind_of_error hb]
    exact .error hahead he

/-- **One after the other.** -/
theorem Follows.bind {next : α → PackedLoad β} {next' : α → Load β}
    (h : Follows bounded packed bitwise) (hn : ∀ a, Follows bounded (next a) (next' a)) :
    Follows bounded (packed >>= next) (bitwise >>= next') :=
  h.bind_of fun _ a _ _ _ => hn a

/-- One after the other, where the second one needs what the first one gives. -/
theorem Follows.bind_gives {next : α → PackedLoad β} {next' : α → Load β} {post : α → Prop}
    (h : Follows bounded packed bitwise) (hg : Slice.Gives bitwise post)
    (hn : ∀ a, post a → Follows bounded (next a) (next' a)) :
    Follows bounded (packed >>= next) (bitwise >>= next') :=
  h.bind_of fun _ a c hs hb => hn a (hg _ a c hs.unpack_made hb).2

theorem Follows.map (h : Follows bounded packed bitwise) (f : α → β) :
    Follows bounded (f <$> packed) (f <$> bitwise) := by
  rw [map_eq_pure_bind, map_eq_pure_bind]
  exact h.bind fun a => follows_pure (f a)

theorem Follows.mono (h : Follows bounded packed bitwise) (hb : bounded' → bounded) :
    Follows bounded' packed bitwise := by
  intro s hs
  have hmatches := h s hs
  generalize packed s = r, bitwise s.unpack = r' at hmatches ⊢
  cases hmatches with
  | ok a hahead => exact .ok a hahead
  | error hahead he => exact .error hahead fun h => he (hb h)

/-- A load that succeeds on the rest that is left does so on the positions. -/
theorem Follows.of_ok (h : Follows bounded packed bitwise) (hs : s.WellFormed) {a : α}
    {rest : Slice} (ha : bitwise s.unpack = .ok a rest) :
    ∃ t, packed s = .ok a t ∧ s.Ahead t ∧ t.unpack = rest := by
  have hmatches := h s hs
  rw [ha] at hmatches
  generalize hp : packed s = r, hr : EStateM.Result.ok a rest = r' at hmatches
  cases hmatches with
  | ok _ hahead =>
    cases hr
    exact ⟨_, rfl, hahead, rfl⟩
  | error _ _ => cases hr

/-- **Some loads**, one after the other. -/
theorem follows_mapM {ι : Type} {packed : ι → PackedLoad α} {bitwise : ι → Load α}
    (h : ∀ i, Follows bounded (packed i) (bitwise i)) (items : List ι) :
    Follows bounded (items.mapM packed) (items.mapM bitwise) := by
  induction items with
  | nil => exact follows_pure []
  | cons i items ih =>
    rw [List.mapM_cons, List.mapM_cons]
    exact (h i).bind fun a => ih.bind fun as => follows_pure (a :: as)

theorem follows_throw {e : CellError} (he : bounded → e.isRefusal = true) :
    Follows bounded (throw e : PackedLoad α) (throw e) :=
  fun _ hs => .error hs.ahead he

theorem follows_ofExcept {x : Except CellError α}
    (h : ∀ e, x = .error e → bounded → e.isRefusal = true) :
    Follows bounded (ofExcept x) (ofExcept x) := by
  cases x with
  | ok a => exact follows_pure a
  | error e => exact follows_throw (h e rfl)

theorem follows_checkedLength (h : bounded → n < 2 ^ 64) :
    Follows bounded (checkedLength n) (checkedLength n) := by
  unfold checkedLength
  split
  · exact follows_pure n
  · next hn => exact follows_throw fun hb => absurd (Bits.bound_eq 64 ▸ h hb) hn

theorem follows_ite {condition : Prop} [Decidable condition] {packed' : PackedLoad α}
    {bitwise' : Load α} (h : condition → Follows bounded packed bitwise)
    (h' : ¬ condition → Follows bounded packed' bitwise') :
    Follows bounded (if condition then packed else packed')
      (if condition then bitwise else bitwise') := by
  split
  · exact h ‹_›
  · exact h' ‹_›

theorem follows_throw_bind {e : CellError} {next : β → PackedLoad α} {next' : β → Load α}
    (he : bounded → e.isRefusal = true) :
    Follows bounded (throw e >>= next) (throw e >>= next') :=
  fun _ hs => .error hs.ahead he

/-- A refusal in front of a load. -/
theorem follows_refuse {condition : Prop} [Decidable condition] {e : CellError}
    {next : Unit → PackedLoad α} {next' : Unit → Load α} (he : e.isRefusal = true)
    (h : ¬ condition → Follows bounded (next ()) (next' ())) :
    Follows bounded (if condition then throw e >>= next else next ())
      (if condition then throw e >>= next' else next' ()) :=
  follows_ite (fun _ => follows_throw_bind fun _ => he) h

/-! ## Bits -/

theorem Peeks.follows (h : Peeks load n value) :
    Follows bounded load (Slice.peekBits n >>= fun bits => pure (value bits)) := by
  intro s hs
  have hensure := Slice.ensureBits_eq n s.unpack
  rw [h s hs, Slice.peekBits, bind_assoc]
  split
  · next hn =>
    rw [if_pos hn] at hensure
    rw [run_bind_of_ok hensure]
    exact .ok _ hs.ahead
  · next hn =>
    rw [if_neg hn] at hensure
    rw [run_bind_of_error hensure]
    exact .error hs.ahead fun _ => rfl

theorem Takes.follows (h : Takes load n value) :
    Follows bounded load (Slice.loadBits n >>= fun bits => pure (value bits)) := by
  intro s hs
  have hbits := Slice.loadBits_eq n s.unpack
  rw [h s hs]
  split
  · next hn =>
    rw [if_pos hn, ← unpack_skip] at hbits
    rw [run_bind_of_ok hbits]
    exact .ok _ (hs.ahead_skip hn)
  · next hn =>
    rw [if_neg hn] at hbits
    rw [run_bind_of_error hbits]
    exact .error hs.ahead fun _ => rfl

theorem follows_peekBits (n : Nat) :
    Follows bounded (peekBits n) (do return Bits.pack (← Slice.peekBits n)) :=
  (peeks_bits n).follows

theorem follows_loadBits (n : Nat) :
    Follows bounded (loadBits n) (do return Bits.pack (← Slice.loadBits n)) :=
  (takes_bits n).follows

theorem follows_ensureBits (n : Nat) : Follows bounded (ensureBits n) (Slice.ensureBits n) := by
  intro s hs
  rw [peeks_ensureBits n s hs, Slice.ensureBits_eq]
  split
  · exact .ok () hs.ahead
  · exact .error hs.ahead fun _ => rfl

theorem follows_skipBits (n : Nat) : Follows bounded (skipBits n) (Slice.skipBits n) := by
  intro s hs
  rw [takes_skipBits n s hs, Slice.skipBits_eq, ← unpack_skip]
  split
  · next h => exact .ok () (hs.ahead_skip h)
  · exact .error hs.ahead fun _ => rfl

theorem follows_loadBit : Follows bounded loadBit Slice.loadBit :=
  takes_bit.follows

theorem follows_loadBytes (n : Nat) (h : bounded → 8 * n < 2 ^ 64) :
    Follows bounded (loadBytes n) (Slice.loadBytes n) :=
  (follows_checkedLength h).bind fun n => follows_loadBits n

theorem follows_loadRemainingBits : Follows bounded loadRemainingBits
    (do return Bits.pack (← Slice.loadRemainingBits)) := by
  intro s hs
  rw [loadRemainingBits, run_bind_of_ok (remainingBits_eq hs)]
  exact follows_loadBits _ s hs

/-! ## Numbers -/

theorem follows_peekWord (width : Nat) :
    Follows bounded (peekWord width) (Slice.peekWord width) := by
  unfold Slice.peekWord
  by_cases h : width > 64
  · rw [peekWord, if_pos h, if_pos h]
    exact follows_throw_bind fun _ => rfl
  · rw [if_neg h]
    exact (peeks_word (not_lt.mp h)).follows

theorem follows_loadWord (width : Nat) :
    Follows bounded (loadWord width) (Slice.loadWord width) := by
  by_cases h : width > 64
  · unfold loadWord Slice.loadWord peekWord Slice.peekWord
    rw [if_pos h, if_pos h]
    exact fun _ hs => .error hs.ahead fun _ => rfl
  · rw [Slice.loadWord_eq (not_lt.mp h)]
    exact (takes_word (not_lt.mp h)).follows

theorem follows_loadSignedWord (width : Nat) :
    Follows bounded (loadSignedWord width) (Slice.loadSignedWord width) := by
  unfold loadSignedWord Slice.loadSignedWord
  exact follows_refuse rfl fun _ => follows_ite (fun _ => follows_pure 0) fun _ =>
    (follows_loadWord width).bind fun word => follows_pure (Slice.signExtend width word)

theorem follows_loadNat (width : Nat) : Follows bounded (loadNat width) (Slice.loadNat width) :=
  (takes_nat width).follows

theorem follows_loadInt (width : Nat) : Follows bounded (loadInt width) (Slice.loadInt width) :=
  follows_ite (fun _ => follows_pure 0) fun _ => (follows_peekWord 1).bind fun _ =>
    (follows_loadNat width).bind fun _ => follows_ite (fun _ => follows_pure _) fun _ =>
      follows_pure _

theorem follows_loadVarNat (lengthBits : Nat) (h : bounded → lengthBits ≤ 60) :
    Follows bounded (loadVarNat lengthBits) (Slice.loadVarNat lengthBits) := by
  refine (follows_loadWord lengthBits).bind_of fun s length c hs hword => ?_
  refine (follows_checkedLength fun hb => ?_).bind fun n => follows_loadNat n
  have hlt := Slice.toNat_lt_of_loadWord hword
  have hpow : 2 ^ lengthBits ≤ 2 ^ 60 := Nat.pow_le_pow_right (by decide) (h hb)
  omega

theorem follows_loadVarWord (lengthBits : Nat) (h : bounded → lengthBits ≤ 60) :
    Follows bounded (loadVarWord lengthBits) (Slice.loadVarWord lengthBits) :=
  (follows_loadVarNat lengthBits h).bind fun _ => follows_ite (fun _ => follows_pure _) fun _ =>
    follows_throw fun _ => rfl

theorem follows_loadCoins : Follows bounded loadCoins Slice.loadCoins := by
  refine (follows_loadWord 4).bind_of fun s length c hs hword => ?_
  refine (follows_loadBytes length.toNat fun _ => ?_).bind fun bytes => follows_pure _
  have hlt := Slice.toNat_lt_of_loadWord hword
  omega

/-! ## References -/

theorem peekRef_of_some {index : Nat} {ref : Cell} (hs : s.WellFormed)
    (h : s.unpack.refs[index]? = some ref) : peekRef index s = .ok ref s := by
  have hlt : index < s.unpack.refs.length := (List.getElem?_eq_some_iff.mp h).1
  have hitem : s.cell.refs[s.refPosition + index]? = some ref := by
    rw [← h]
    exact List.getElem?_drop.symm
  rw [peekRef, run_bind_of_ok (remainingRefs_eq hs), if_neg (not_le.mpr hlt)]
  change (ofExcept (Checked.item s.cell.refs (s.refPosition + index)) : PackedLoad Cell) s = _
  rw [Checked.item_eq_ok_iff.mpr hitem]
  rfl

theorem peekRef_of_none {index : Nat} (hs : s.WellFormed) (h : s.unpack.refs[index]? = none) :
    peekRef index s = .error (.referenceOutOfRange index s.unpack.refs.length) s := by
  rw [peekRef, run_bind_of_ok (remainingRefs_eq hs), if_pos (List.getElem?_eq_none_iff.mp h)]
  rfl

theorem follows_peekRef (index : Nat) :
    Follows bounded (peekRef index) (Slice.peekRef index) := by
  intro s hs
  cases h : s.unpack.refs[index]? with
  | some ref =>
    rw [peekRef_of_some hs h, Slice.peekRef_of_some h]
    exact .ok ref hs.ahead
  | none =>
    rw [peekRef_of_none hs h, Slice.peekRef_of_none h]
    exact .error hs.ahead fun _ => rfl

theorem loadRef_of_some {ref : Cell} (hs : s.WellFormed) (h : s.unpack.refs[0]? = some ref) :
    loadRef s = .ok ref (s.pass 1) := by
  rw [loadRef, run_bind_of_ok (peekRef_of_some hs h)]
  rfl

theorem loadRef_of_none (hs : s.WellFormed) (h : s.unpack.refs[0]? = none) :
    loadRef s = .error (.referenceOutOfRange 0 s.unpack.refs.length) s :=
  run_bind_of_error (peekRef_of_none hs h)

theorem follows_loadRef : Follows bounded loadRef Slice.loadRef := by
  intro s hs
  cases h : s.unpack.refs[0]? with
  | some ref =>
    have hlt : 0 < s.unpack.refs.length := (List.getElem?_eq_some_iff.mp h).1
    have hload : Slice.loadRef s.unpack = .ok ref (s.pass 1).unpack := by
      rw [Slice.loadRef, run_bind_of_ok (Slice.peekRef_of_some h), unpack_pass]
      rfl
    rw [loadRef_of_some hs h, hload]
    exact .ok ref (hs.ahead_pass hlt)
  | none =>
    have hload : Slice.loadRef s.unpack = .error _ s.unpack :=
      run_bind_of_error (Slice.peekRef_of_none h)
    rw [loadRef_of_none hs h, hload]
    exact .error hs.ahead fun _ => rfl

theorem follows_skipRefs (n : Nat) : Follows bounded (skipRefs n) (Slice.skipRefs n) := by
  intro s hs
  rw [skipRefs, run_bind_of_ok (remainingRefs_eq hs)]
  change Matches bounded s _ ((if n > s.unpack.refs.length then
    throw (.referenceOutOfRange (n - 1) s.unpack.refs.length) >>= fun _ =>
      set { s.unpack with refs := s.unpack.refs.drop n }
    else set { s.unpack with refs := s.unpack.refs.drop n } : Load Unit) s.unpack)
  split
  · next h =>
    rw [Checked.minus_eq_ok (by omega)]
    exact .error hs.ahead fun _ => rfl
  · next h =>
    rw [← unpack_pass]
    exact .ok () (hs.ahead_pass (not_lt.mp h))

/-- The next references, as many as are asked for. -/
theorem loadRefs_eq (hs : s.WellFormed) (hn : n ≤ s.unpack.refs.length) :
    loadRefs n s = .ok (s.unpack.refs.take n) (s.pass n) := by
  induction n generalizing s with
  | zero => rfl
  | succ n ih =>
    rcases hrefs : s.unpack.refs with _ | ⟨ref, refs⟩
    · rw [hrefs] at hn
      cases hn
    · rw [hrefs, List.length_cons] at hn
      have hnext : s.unpack.refs[0]? = some ref := by rw [hrefs]; rfl
      have hrest : (s.pass 1).unpack.refs = refs := by rw [unpack_pass, hrefs]; rfl
      have hone : s.Ahead (s.pass 1) := hs.ahead_pass (by rw [hrefs, List.length_cons]; omega)
      have hloads := ih hone.wellFormed (by rw [hrest]; omega)
      rw [loadRefs, run_bind_of_ok (loadRef_of_some hs hnext), run_bind_of_ok hloads, hrest,
        List.take_succ_cons, pass_pass, Nat.add_comm]
      rfl

theorem follows_loadMaybeRef : Follows bounded loadMaybeRef Slice.loadMaybeRef :=
  follows_loadBit.bind fun _ => follows_ite
    (fun _ => follows_loadRef.bind fun ref => follows_pure (some ref)) fun _ => follows_pure none

theorem follows_loadRemainingRefs :
    Follows bounded loadRemainingRefs Slice.loadRemainingRefs := by
  intro s hs
  have hrest : (s.pass s.unpack.refs.length).unpack = { s.unpack with refs := [] } := by
    rw [unpack_pass, List.drop_length]
  have hload : Slice.loadRemainingRefs s.unpack = .ok s.unpack.refs { s.unpack with refs := [] } :=
    rfl
  rw [loadRemainingRefs, run_bind_of_ok (remainingRefs_eq hs), loadRefs_eq hs le_rfl,
    List.take_length, hload, ← hrest]
  exact .ok _ (hs.ahead_pass le_rfl)

/-- A dictionary, for whose keys there is room. -/
theorem follows_loadDictionary (width : Nat) (h : bounded → width < 2 ^ 63) :
    Follows bounded (loadDictionary width) (Slice.loadDictionary width) := by
  refine follows_loadMaybeRef.bind_gives Slice.gives_loadMaybeRef fun root? hroot => ?_
  cases root? with
  | none => exact follows_pure _
  | some root =>
    exact follows_ofExcept fun e he hb =>
      Dictionary.isRefusal_of_ofCell (hroot root rfl) (h hb) he

/-! ## The whole slice -/

theorem follows_endParse : Follows bounded endParse Slice.endParse := by
  intro s hs
  have hempty : s.unpack.isEmpty = true ↔
      s.unpack.bits.length = 0 ∧ s.unpack.refs.length = 0 := by
    rw [Slice.isEmpty, Bool.and_eq_true, List.isEmpty_iff_length_eq_zero,
      List.isEmpty_iff_length_eq_zero]
  rw [endParse, run_bind_of_ok (remainingBits_eq hs), run_bind_of_ok (remainingRefs_eq hs),
    Slice.endParse_eq]
  by_cases h : s.unpack.bits.length = 0 ∧ s.unpack.refs.length = 0
  · rw [if_neg (not_not.mpr h), if_pos (hempty.mpr h)]
    exact .ok () hs.ahead
  · rw [if_pos h, if_neg (mt hempty.mp h)]
    exact .error hs.ahead fun _ => rfl

/-- Whether nothing has been read of an ordinary cell. -/
def Fresh (s : PackedSlice) : Prop :=
  s.bitPosition = 0 ∧ s.refPosition = 0 ∧ s.cell.isExotic = false

/-- What is left of a made cell is built again as it is. -/
theorem build_rest (hs : s.WellFormed) : PackedBuilder.build (do
    PackedBuilder.storeBits (Bits.pack s.unpack.bits) s.unpack.bits.length
    s.unpack.refs.forM PackedBuilder.storeRef) =
      Cell.make .ordinary s.unpack.bits s.unpack.refs := by
  have hlen : s.unpack.bits.length ≤ 8 * (Bits.pack s.unpack.bits).length := by
    rw [Bits.length_pack]
    omega
  have hfills := (PackedBuilder.fills_storeBits hlen (Bits.take_ofBytes_pack _)).bind
    (PackedBuilder.fills_forM_storeRef s.unpack.refs)
  rw [List.append_nil, List.nil_append] at hfills
  refine hfills.build (Builder.canFit_iff.mpr ?_)
  have hbits := hs.made.sound.bits_le
  have hrefs := hs.made.sound.refs_le
  rw [length_unpack_bits, length_unpack_refs]
  exact ⟨(Nat.sub_le ..).trans hbits, (Nat.sub_le ..).trans hrefs⟩

theorem toCell_of_fresh (hf : s.Fresh) : toCell s = .ok s.cell s.finish := by
  have h : s.bitPosition = 0 ∧ s.refPosition = 0 ∧ s.cell.isExotic = false := hf
  change ((if s.bitPosition = 0 ∧ s.refPosition = 0 ∧ s.cell.isExotic = false then
    set s.finish >>= fun _ => pure s.cell else _) : PackedLoad Cell) s = _
  rw [if_pos h]
  rfl

/-- Everything that is left, as an ordinary cell that is made anew even where the cell of the slice
would do. -/
def rebuild : PackedLoad Cell := do
  let count ← remainingBits
  let bytes ← loadBits count
  let refs ← loadRemainingRefs
  ofExcept <| PackedBuilder.build do
    PackedBuilder.storeBits bytes count
    refs.forM PackedBuilder.storeRef

theorem rebuild_eq_make (hs : s.WellFormed) :
    rebuild s = (ofExcept (Cell.make .ordinary s.unpack.bits s.unpack.refs) : PackedLoad Cell)
      s.finish := by
  have hbits := takes_bits s.unpack.bits.length s hs
  rw [if_pos le_rfl, List.take_length] at hbits
  have hrefs : loadRemainingRefs (s.skip s.unpack.bits.length) = .ok s.unpack.refs s.finish := by
    have hahead := hs.ahead_skip (n := s.unpack.bits.length) le_rfl
    rw [loadRemainingRefs, run_bind_of_ok (remainingRefs_eq hahead.wellFormed),
      loadRefs_eq hahead.wellFormed le_rfl, List.take_length, unpack_skip, finish_eq hs]
  rw [rebuild, run_bind_of_ok (remainingBits_eq hs), run_bind_of_ok hbits, run_bind_of_ok hrefs,
    build_rest hs]

theorem toCell_of_not_fresh (hs : s.WellFormed) (hf : ¬ s.Fresh) :
    toCell s = (ofExcept (Cell.make .ordinary s.unpack.bits s.unpack.refs) : PackedLoad Cell)
      s.finish := by
  have h : ¬ (s.bitPosition = 0 ∧ s.refPosition = 0 ∧ s.cell.isExotic = false) := hf
  change ((if s.bitPosition = 0 ∧ s.refPosition = 0 ∧ s.cell.isExotic = false then _
    else rebuild) : PackedLoad Cell) s = _
  rw [if_neg h, rebuild_eq_make hs]

theorem fresh_iff (hs : s.WellFormed) : s.Fresh ↔ s.unpack.bitPosition = 0 ∧
    s.unpack.refPosition = 0 ∧ s.unpack.cell.isExotic = false := by
  rw [Slice.bitPosition, Slice.refPosition, length_unpack_bits, length_unpack_refs]
  change _ ↔ s.cell.bits.length - _ = 0 ∧ s.cell.refs.length - _ = 0 ∧ _
  rw [Nat.sub_sub_self hs.bits, Nat.sub_sub_self hs.refs]
  rfl

/-- The cell of what is left, which is not made only where some depth leaves two bytes. -/
theorem follows_toCell : Follows False toCell Slice.toCell := by
  intro s hs
  change Matches False s _ ((if s.unpack.bitPosition = 0 ∧ s.unpack.refPosition = 0 ∧
    s.unpack.cell.isExotic = false then pure s.cell
      else ofExcept (Cell.make .ordinary s.unpack.bits s.unpack.refs) : Load Cell) ⟨s.cell, [], []⟩)
  rw [← unpack_finish]
  by_cases hf : s.Fresh
  · rw [if_pos ((fresh_iff hs).mp hf), toCell_of_fresh hf]
    exact .ok s.cell hs.ahead_finish
  · rw [if_neg (mt (fresh_iff hs).mpr hf), toCell_of_not_fresh hs hf]
    cases Cell.make .ordinary s.unpack.bits s.unpack.refs with
    | ok cell => exact .ok cell hs.ahead_finish
    | error e => exact .error hs.ahead_finish nofun

/-! ## Snakes -/

theorem loadWholeBytes_of_ok {head : Bytes} (hs : s.WellFormed)
    (h : Snake.wholeBytes s.unpack.bits = .ok head) :
    loadWholeBytes s = .ok head (s.skip s.unpack.bits.length) := by
  unfold Snake.wholeBytes at h
  split at h
  · next hmod =>
    cases h
    have hwhole : 8 * (s.unpack.bits.length / 8) = s.unpack.bits.length := by omega
    have hlt : 8 * (s.unpack.bits.length / 8) < 2 ^ 64 := by
      have hbits := hs.bits_lt
      rw [Bits.bound_eq] at hbits
      rw [hwhole, length_unpack_bits]
      omega
    rw [loadWholeBytes, run_bind_of_ok (remainingBits_eq hs), if_neg (not_not.mpr hmod)]
    change loadBytes (s.unpack.bits.length / 8) s = _
    rw [takes_bytes hlt s hs, hwhole, if_pos le_rfl, List.take_length]
  · cases h

theorem loadWholeBytes_of_error {e : CellError} (hs : s.WellFormed)
    (h : Snake.wholeBytes s.unpack.bits = .error e) :
    loadWholeBytes s = .error e s ∧ e.isRefusal = true := by
  unfold Snake.wholeBytes at h
  split at h
  · cases h
  · next hmod =>
    cases h
    rw [loadWholeBytes, run_bind_of_ok (remainingBits_eq hs), if_pos hmod]
    exact ⟨rfl, rfl⟩

/-- **The bytes of a chain** of made cells. -/
theorem chain_eq {cell : Cell} (h : cell.Made) : chain cell = Snake.bytes cell := by
  induction cell using Cell.induction_refs with
  | step cell ih =>
    have hs := wellFormed_ofCell h
    obtain ⟨kind, bits, refs, mask, hashes⟩ := cell
    rw [chain, Snake.bytes, ordinary, Cell.isExotic, Cell.kind]
    split
    · rfl
    · dsimp only [bind, Except.bind, pure, Except.pure]
      cases hhead : Snake.wholeBytes bits with
      | error e =>
        rw [(loadWholeBytes_of_error hs hhead).1]
      | ok head =>
        rw [loadWholeBytes_of_ok hs hhead]
        cases refs with
        | nil => rfl
        | cons next rest =>
          have hnext : next ∈ (Cell.mk kind bits (next :: rest) mask hashes).refs :=
            List.mem_cons_self
          change (do return head ++ (← chain next)) = do return head ++ (← Snake.bytes next)
          rw [ih next hnext (h.refs hnext)]

theorem isRefusal_of_bytes {cell : Cell} {e : CellError} (h : Snake.bytes cell = .error e) :
    e.isRefusal = true := by
  induction cell using Cell.induction_refs with
  | step cell ih =>
    obtain ⟨kind, bits, refs, mask, hashes⟩ := cell
    rw [Snake.bytes] at h
    split at h
    · cases h
      rfl
    rcases bind_eq_error_iff.mp h with h | ⟨head, -, h⟩
    · unfold Snake.wholeBytes at h
      split at h <;> cases h
      rfl
    · cases refs with
      | nil => cases h
      | cons next rest =>
        rcases bind_eq_error_iff.mp h with h | ⟨_, _, h⟩
        · exact ih next List.mem_cons_self h
        · cases h

theorem follows_loadSnake : Follows bounded loadSnake Slice.loadSnake := by
  intro s hs
  have hbit : Slice.loadSnake s.unpack = ((do
      let head ← ofExcept (Snake.wholeBytes s.unpack.bits)
      let _ ← Slice.loadRemainingBits
      if s.unpack.refs.isEmpty then return head
      else
        let next ← Slice.loadRef
        return head ++ (← ofExcept (Snake.bytes next))) : Load Bytes) s.unpack := rfl
  rw [hbit]
  cases hhead : Snake.wholeBytes s.unpack.bits with
  | error e =>
    obtain ⟨hload, he⟩ := loadWholeBytes_of_error hs hhead
    have hload' : loadSnake s = .error e s := run_bind_of_error hload
    rw [hload']
    exact .error hs.ahead fun _ => he
  | ok head =>
    have hahead := hs.ahead_skip (n := s.unpack.bits.length) le_rfl
    have hrest : Slice.loadRemainingBits s.unpack =
        .ok s.unpack.bits (s.skip s.unpack.bits.length).unpack := by
      have hbits := Slice.loadBits_eq s.unpack.bits.length s.unpack
      rw [if_pos le_rfl, List.take_length, ← unpack_skip] at hbits
      exact hbits
    have htail : Follows bounded (do
        let next ← loadRef
        return head ++ (← ofExcept (chain next))) (do
        let next ← Slice.loadRef
        return head ++ (← ofExcept (Snake.bytes next))) := by
      refine follows_loadRef.bind_gives Slice.gives_loadRef fun next hnext => ?_
      rw [chain_eq hnext]
      exact (follows_ofExcept fun e he _ => isRefusal_of_bytes he).bind fun _ => follows_pure _
    have hrefs : (s.skip s.unpack.bits.length).unpack.refs.length = 0 ↔
        s.unpack.refs.isEmpty = true := by
      rw [unpack_skip, List.isEmpty_iff_length_eq_zero]
    rw [loadSnake, run_bind_of_ok (loadWholeBytes_of_ok hs hhead),
      run_bind_of_ok (remainingRefs_eq hahead.wellFormed)]
    refine Matches.trans hahead ?_
    change Matches bounded _ _ ((Slice.loadRemainingBits >>= fun _ =>
      if s.unpack.refs.isEmpty then pure head else _ : Load Bytes) s.unpack)
    rw [run_bind_of_ok hrest]
    by_cases hempty : s.unpack.refs.isEmpty = true
    · rw [if_pos (hrefs.mpr hempty), if_pos hempty]
      exact .ok head hahead.wellFormed.ahead
    · rw [if_neg (mt hrefs.mp hempty), if_neg hempty]
      exact htail _ hahead.wellFormed

theorem follows_loadSnakeString : Follows bounded loadSnakeString Slice.loadSnakeString := by
  refine follows_loadSnake.bind fun data => ?_
  cases String.fromUTF8? ⟨data.toArray⟩ with
  | some text => exact follows_pure text
  | none => exact follows_throw fun _ => rfl

/-! ## Addresses -/

theorem follows_loadAddress : Follows bounded loadAddress Slice.loadAddress := by
  refine (follows_peekWord 2).bind fun form => ?_
  refine follows_ite (fun _ => (follows_skipBits 2).bind fun _ => follows_pure none) fun _ => ?_
  refine follows_ite (fun _ => ?_) fun _ => follows_ite (fun _ => follows_throw fun _ => rfl)
    fun _ => follows_throw fun _ => rfl
  refine (follows_ensureBits _).bind fun _ => (follows_skipBits 2).bind fun _ => ?_
  refine follows_loadBit.bind fun _ => follows_refuse rfl fun _ => ?_
  exact (follows_loadSignedWord 8).bind fun workchain =>
    (follows_loadBytes 32 fun _ => by decide).bind fun account => follows_pure _

theorem follows_loadExternalAddress :
    Follows bounded loadExternalAddress Slice.loadExternalAddress := by
  refine (follows_peekWord 2).bind fun form => follows_refuse rfl fun _ => ?_
  refine (follows_skipBits 2).bind fun _ => (follows_loadWord 9).bind fun length => ?_
  have hbits : Follows bounded (loadBits length.toNat) _ := follows_loadBits length.toNat
  have h := hbits.bind
    fun data => follows_pure (⟨data, length.toNat⟩ : ExternalAddress)
  rwa [bind_assoc] at h

end PackedSlice

/-! ## Every call -/

namespace LoadCall

open PackedSlice

/-- Numbers below `2 ^ 60`, and lengths of numbers in at most 60 bits. -/
def Bounded : LoadCall → Prop
  | .peekBits n | .bits n | .bytes n | .skipBits n | .peekWord n | .word n | .signedWord n | .nat n
  | .int n | .peekRef n | .skipRefs n | .dictionary n => n < 2 ^ 60
  | .varWord lengthBits | .varNat lengthBits => lengthBits ≤ 60
  | _ => True

/-- What a call does to the rest that is left. -/
def runOnBits : LoadCall → Load Loaded
  | .bit => .bit <$> Slice.loadBit
  | .peekBits count => .bytes <$> (do return Bits.pack (← Slice.peekBits count))
  | .bits count => .bytes <$> (do return Bits.pack (← Slice.loadBits count))
  | .bytes count => .bytes <$> Slice.loadBytes count
  | .remainingBits => .bytes <$> (do return Bits.pack (← Slice.loadRemainingBits))
  | .skipBits count => (fun _ => .nothing) <$> Slice.skipBits count
  | .peekWord width => .word <$> Slice.peekWord width
  | .word width => .word <$> Slice.loadWord width
  | .signedWord width => .signedWord <$> Slice.loadSignedWord width
  | .nat width => .nat <$> Slice.loadNat width
  | .int width => .int <$> Slice.loadInt width
  | .varWord lengthBits => .word <$> Slice.loadVarWord lengthBits
  | .varNat lengthBits => .nat <$> Slice.loadVarNat lengthBits
  | .coins => .nat <$> Slice.loadCoins
  | .ref => .cell <$> Slice.loadRef
  | .peekRef index => .cell <$> Slice.peekRef index
  | .maybeRef => .maybeCell <$> Slice.loadMaybeRef
  | .skipRefs count => (fun _ => .nothing) <$> Slice.skipRefs count
  | .remainingRefs => .cells <$> Slice.loadRemainingRefs
  | .dictionary width => .dictionary <$> Slice.loadDictionary width
  | .snake => .bytes <$> Slice.loadSnake
  | .snakeText => .text <$> Slice.loadSnakeString
  | .address => .address <$> Slice.loadAddress
  | .externalAddress => .externalAddress <$> Slice.loadExternalAddress
  | .toCell => .cell <$> Slice.toCell
  | .endParse => (fun _ => .nothing) <$> Slice.endParse
  | .reset => (fun _ => .nothing) <$> Slice.reset

/-- **Every call** but for a reset follows what it does to the rest that is left. A call with
bounded arguments gives a value or is refused, unless it makes a cell. -/
theorem follows : ∀ call : LoadCall, call ≠ .reset →
    Follows (call.Bounded ∧ call ≠ .toCell) call.run call.runOnBits
  | .bit, _ => follows_loadBit.map _
  | .peekBits count, _ => (follows_peekBits count).map _
  | .bits count, _ => (follows_loadBits count).map _
  | .bytes count, _ => (follows_loadBytes count fun h => by
      have hlt : count < 2 ^ 60 := h.1
      omega).map _
  | .remainingBits, _ => follows_loadRemainingBits.map _
  | .skipBits count, _ => (follows_skipBits count).map _
  | .peekWord width, _ => (follows_peekWord width).map _
  | .word width, _ => (follows_loadWord width).map _
  | .signedWord width, _ => (follows_loadSignedWord width).map _
  | .nat width, _ => (follows_loadNat width).map _
  | .int width, _ => (follows_loadInt width).map _
  | .varWord lengthBits, _ => (follows_loadVarWord lengthBits fun h => h.1).map _
  | .varNat lengthBits, _ => (follows_loadVarNat lengthBits fun h => h.1).map _
  | .coins, _ => follows_loadCoins.map _
  | .ref, _ => follows_loadRef.map _
  | .peekRef index, _ => (follows_peekRef index).map _
  | .maybeRef, _ => follows_loadMaybeRef.map _
  | .skipRefs count, _ => (follows_skipRefs count).map _
  | .remainingRefs, _ => follows_loadRemainingRefs.map _
  | .dictionary width, _ => (follows_loadDictionary width fun h => by
      have hlt : width < 2 ^ 60 := h.1
      omega).map _
  | .snake, _ => follows_loadSnake.map _
  | .snakeText, _ => follows_loadSnakeString.map _
  | .address, _ => follows_loadAddress.map _
  | .externalAddress, _ => follows_loadExternalAddress.map _
  | .toCell, _ => (follows_toCell.mono fun h => h.2 rfl).map _
  | .endParse, _ => follows_endParse.map _
  | .reset, h => absurd rfl h

end LoadCall

end BagOfCells
