import BagOfCells.Proofs.Builder.Unchanged
import BagOfCells.Proofs.Slice.Extreme

/-!
# Machine words and numbers of any size

Numbers are stored and loaded in two ways, as machine words by shifts and masks and as numbers of
any size by their bytes. Both stores hold the number against its width first and the width against
the room next, and put the same bits down. Both loads give the number that the same bits spell and
fall short of them at the same place. So the two ways agree: they give the same number, or are
refused for reasons of one kind, and leave the same behind. A number of variable length may be too
large for a machine word; then it is read all the same.

## Main definitions

* `RefusalKind`, `CellError.refusalKind?`: the kinds of refusals
* `Agree`, `Refused`: two outcomes that agree, and an outcome that is a refusal of some kind
* `Builder.Ranged store inRange bits`: a store that first holds its value against a range

## Main results

* `Builder.ranged_storeWord`, `Builder.ranged_storeInt` and their like: each store of a number
* `PackedSlice.agree_word`, `PackedSlice.agree_signedWord`, `PackedSlice.agree_coins`: the loads
* `words_agree`: all of them, after any stores and loads
-/

namespace BagOfCells

open Outcome

/-! ## Outcomes that agree -/

/-- The kinds of refusals, without what they tell. -/
inductive RefusalKind where
  | capacityExceeded
  | underflow
  | malformed
  | tagMismatch
  | referenceOutOfRange
  | unsupportedKind
  | valueOutOfRange
  | missingField
  deriving DecidableEq

/-- The kind of an error that is a refusal. -/
def CellError.refusalKind? : CellError → Option RefusalKind
  | capacityExceeded _ _ _ => some .capacityExceeded
  | underflow _ _ => some .underflow
  | malformed _ => some .malformed
  | tagMismatch _ _ => some .tagMismatch
  | referenceOutOfRange _ _ => some .referenceOutOfRange
  | unsupportedKind _ => some .unsupportedKind
  | valueOutOfRange _ => some .valueOutOfRange
  | missingField _ => some .missingField
  | overflow | outOfBounds => none

theorem CellError.exists_refusalKind {e : CellError} (h : e.isRefusal = true) :
    ∃ kind, e.refusalKind? = some kind := by
  cases e <;> first | exact ⟨_, rfl⟩ | cases h

variable {σ α β : Type}

/-- Two outcomes are the same value or refusals of one kind, and leave the same behind. -/
inductive Agree : EStateM.Result CellError σ α → EStateM.Result CellError σ α → Prop where
  | ok (a : α) (s : σ) : Agree (.ok a s) (.ok a s)
  | refused {e e' : CellError} {kind : RefusalKind} (s : σ) (h : e.refusalKind? = some kind)
    (h' : e'.refusalKind? = some kind) : Agree (.error e s) (.error e' s)

/-- An outcome is a refusal of some kind. -/
def Refused (kind : RefusalKind) (r : EStateM.Result CellError σ α) : Prop :=
  ∃ e s, r = .error e s ∧ e.refusalKind? = some kind

theorem Agree.of_isRefusal {e : CellError} (s : σ) (h : e.isRefusal = true) :
    Agree (.error e s : EStateM.Result CellError σ α) (.error e s) := by
  obtain ⟨kind, hkind⟩ := CellError.exists_refusalKind h
  exact .refused s hkind hkind

/-- One first step for both: what follows it must agree. -/
theorem agree_bind {step : EStateM CellError σ α} {next next' : α → EStateM CellError σ β} {s : σ}
    (hok : ∀ a t, step s = .ok a t → Agree (next a t) (next' a t))
    (herror : ∀ e t, step s = .error e t → e.isRefusal = true) :
    Agree ((step >>= next) s) ((step >>= next') s) := by
  cases hstep : step s with
  | ok a t =>
    rw [run_bind_of_ok hstep, run_bind_of_ok hstep]
    exact hok a t hstep
  | error e t =>
    rw [run_bind_of_error hstep, run_bind_of_error hstep]
    exact .of_isRefusal t (herror e t hstep)

/-! ## Stores -/

namespace Builder

/-- A store refuses a value out of range before anything else, and puts some bits down for any other
value, if there is room for them. -/
structure Ranged (store : Store) (inRange : Prop) (bits : Bits) : Prop where
  stores : inRange → store = append bits []
  refuses : ¬ inRange → ∃ cause, store = throw (.valueOutOfRange cause)

variable {store store' : Store} {inRange : Prop} {bits : Bits} {b : Builder}

/-- Why some bits do not fit. -/
theorem append_cases (bits : Bits) (b : Builder) :
    (∃ c, append bits [] b = .ok () c) ∨
      ∃ requested available unit,
        append bits [] b = .error (.capacityExceeded requested available unit) b := by
  unfold append refusal?
  split
  · next e he =>
    refine .inr ?_
    split at he
    · cases he
      exact ⟨_, _, _, rfl⟩
    · split at he <;> cases he
      exact ⟨_, _, _, rfl⟩
  · exact .inl ⟨_, rfl⟩

/-- **Two stores** of one range that put the same bits down agree. -/
theorem Ranged.agree (h : Ranged store inRange bits) (h' : Ranged store' inRange bits)
    (b : Builder) : Agree (store b) (store' b) := by
  by_cases hin : inRange
  · rw [h.stores hin, h'.stores hin]
    rcases append_cases bits b with ⟨c, hc⟩ | ⟨_, _, _, he⟩
    · rw [hc]
      exact .ok () c
    · rw [he]
      exact .refused b rfl rfl
  · obtain ⟨_, hstore⟩ := h.refuses hin
    obtain ⟨_, hstore'⟩ := h'.refuses hin
    rw [hstore, hstore']
    exact .refused b rfl rfl

/-- Only a value out of range is refused for its range. -/
theorem Ranged.refused_iff (h : Ranged store inRange bits) (b : Builder) :
    Refused .valueOutOfRange (store b) ↔ ¬ inRange := by
  refine ⟨?_, fun hout => ?_⟩
  · rintro ⟨e, c, he, hkind⟩ hin
    rw [h.stores hin] at he
    rcases append_cases bits b with ⟨_, hc⟩ | ⟨_, _, _, hfull⟩
    · rw [hc] at he
      cases he
    · rw [hfull] at he
      cases he
      cases hkind
  · obtain ⟨cause, hstore⟩ := h.refuses hout
    rw [hstore]
    exact ⟨_, b, rfl, rfl⟩

theorem append_nil : append [] [] = pure () := by
  funext b
  have hfit : b.canFit 0 0 = true := canFit_iff.mpr ⟨Nat.zero_le _, Nat.zero_le _⟩
  exact append_eq_ok_iff.mpr ⟨hfit, (behind_nil b).symm⟩

theorem ranged_storeNat (value width : Nat) :
    Ranged (storeNat value width) (value < 2 ^ width) (Bits.ofNat width value) := by
  rw [← Bits.size_le_iff_lt]
  refine ⟨storeNat_eq, fun h => ⟨.unsigned value width, ?_⟩⟩
  unfold storeNat
  rw [if_pos (Nat.not_le.mp h)]
  rfl

theorem ranged_storeWord (word : UInt64) (width : Nat) :
    Ranged (storeWord word width) (word.toNat < 2 ^ width) (Bits.ofNat width word.toNat) := by
  unfold storeWord
  split
  · exact ranged_storeNat word.toNat width
  · next hw =>
    have hw' := Nat.not_lt.mp hw
    have hlarge : width < 64 ∧ word >>> width.toUInt64 ≠ 0 ↔ ¬ word.toNat < 2 ^ width := by
      rw [shiftRight_ne_zero_iff hw', Bits.size_le_iff_lt]
    refine ⟨fun h => ?_, fun h => ⟨.unsigned word.toNat width, ?_⟩⟩
    · rw [if_neg fun hshift => hlarge.mp hshift h]
      unfold storeLowBits
      rw [if_neg hw, Bits.ofWord_eq_ofNat hw']
    · rw [if_pos (hlarge.mpr h)]
      rfl

theorem ranged_storeInt (value : Int) (width : Nat) :
    Ranged (storeInt value width) (StoreCall.InSignedRange value width)
      (Bits.ofInt width value) := by
  rw [StoreCall.inSignedRange_iff]
  unfold storeInt
  split
  · next h0 =>
    subst h0
    rw [Bits.signedSize_le_zero_iff]
    refine ⟨fun h => ?_, fun h => ⟨.unsigned value 0, if_pos h⟩⟩
    rw [if_neg (not_not_intro h)]
    exact append_nil.symm
  · refine ⟨fun h => ?_, fun h => ⟨.signed value width, ?_⟩⟩
    · have happend := ensureFits_append (Bits.ofInt width value) []
      rw [Bits.length_ofInt] at happend
      rw [if_neg (Nat.not_lt.mpr h)]
      exact happend
    · rw [if_pos (Nat.not_le.mp h)]
      rfl

theorem ranged_storeSignedWord (word : Int64) (width : Nat) :
    Ranged (storeSignedWord word width) (StoreCall.InSignedRange word.toInt width)
      (Bits.ofInt width word.toInt) := by
  unfold storeSignedWord
  split
  · exact ranged_storeInt word.toInt width
  · next hw =>
    have hw' := Nat.not_lt.mp hw
    rw [StoreCall.inSignedRange_iff, ← signedWordFits_iff hw']
    refine ⟨fun h => ?_, fun h => ⟨.signed word.toInt width, ?_⟩⟩
    · rw [if_neg (not_not_intro h)]
      unfold storeLowBits
      rw [if_neg hw, Bits.ofWord_eq_ofNat hw', ← Bits.ofInt_word word hw']
    · rw [if_pos h]
      rfl

end Builder

namespace PackedBuilder

variable {packed packed' : PackedStore} {store store' : Store} {b : Builder}

/-- What agrees on the bits agrees on the bytes. -/
theorem Performs.agree (h : Performs packed store) (h' : Performs packed' store')
    (hb : b.InLimits) (hagree : Agree (store b) (store' b)) :
    Agree (packed b.pack) (packed' b.pack) := by
  have hmatches := h b hb
  have hmatches' := h' b hb
  generalize packed b.pack = r, packed' b.pack = r', store b = q, store' b = q'
    at hmatches hmatches' hagree ⊢
  cases hagree with
  | ok _ c =>
    cases hmatches
    cases hmatches'
    exact .ok () c.pack
  | refused c he he' =>
    cases hmatches
    cases hmatches'
    exact .refused c.pack he he'

theorem Performs.refused_iff (h : Performs packed store) (hb : b.InLimits) {kind : RefusalKind} :
    Refused kind (packed b.pack) ↔ Refused kind (store b) := by
  have hmatches := h b hb
  generalize packed b.pack = r, store b = q at hmatches
  cases hmatches with
  | ok _ _ => exact ⟨nofun, nofun⟩
  | error e _ =>
    constructor
    · rintro ⟨_, _, ⟨⟩, hkind⟩
      exact ⟨e, _, rfl, hkind⟩
    · rintro ⟨_, _, ⟨⟩, hkind⟩
      exact ⟨e, _, rfl, hkind⟩

end PackedBuilder

/-! ## Loads -/

namespace Bits

/-- The numbers in two's complement of some bits. -/
theorem toInt_bounds {bits : Bits} {width : Nat} (h : bits.length = width + 1) :
    -2 ^ width ≤ toInt bits ∧ toInt bits < 2 ^ width := by
  rcases bits with _ | ⟨sign, bits⟩
  · cases h
  · obtain rfl : bits.length = width := Nat.succ.inj h
    have hpow : ((2 ^ bits.length : Nat) : Int) = 2 ^ bits.length := by norm_cast
    have hlt := toNat_lt bits
    rw [toInt, bound_eq, toNat_cons, List.length_cons, List.head?_cons, Nat.pow_succ, ← hpow]
    cases sign with
    | false =>
      rw [if_neg (by decide), Bool.toNat_false]
      omega
    | true =>
      rw [if_pos rfl, Bool.toNat_true]
      omega

/-- A machine word holds the numbers of up to 64 bits in two's complement. -/
theorem toInt_ofInt_toInt {bits : Bits} (h : bits.length ≤ 64) :
    (Int64.ofInt bits.toInt).toInt = bits.toInt := by
  cases hl : bits.length with
  | zero =>
    rw [List.length_eq_zero_iff.mp hl]
    rfl
  | succ width =>
    obtain ⟨hle, hlt⟩ := toInt_bounds hl
    have hpow : (2 : Int) ^ width ≤ 2 ^ 63 := pow_le_pow_right₀ (by decide) (by omega)
    exact Int64.toInt_ofInt_of_le (by omega) (by omega)

end Bits

namespace PackedSlice

variable {s : PackedSlice} {load load' : PackedLoad α} {n : Nat} {value value' : Bits → α}

/-- Two loads of the same bits that stand for the same. -/
theorem Takes.agree (h : Takes load n value) (h' : Takes load' n value') (hs : s.WellFormed)
    (hv : ∀ bits, bits.length = n → value bits = value' bits) : Agree (load s) (load' s) := by
  rw [h s hs, h' s hs]
  split
  · next hle =>
    rw [hv _ (List.length_take_of_le hle)]
    exact .ok _ _
  · exact .refused s rfl rfl

theorem agree_word (hs : s.WellFormed) (hn : n ≤ 64) :
    Agree ((UInt64.toNat <$> loadWord n) s) (loadNat n s) :=
  ((takes_word hn).map UInt64.toNat).agree (takes_nat n) hs fun _ hl =>
    Bits.toNat_toWord (hl ▸ hn)

theorem agree_signedWord (hs : s.WellFormed) (hn : n ≤ 64) :
    Agree ((Int64.toInt <$> loadSignedWord n) s) (loadInt n s) := by
  rw [(takes_signedWord hn).map Int64.toInt s hs, loadInt_eq hs]
  split
  · next hle =>
    have hl : (s.unpack.bits.take n).length ≤ 64 := (List.length_take_of_le hle).trans_le hn
    dsimp only
    rw [Bits.toInt_ofInt_toInt hl]
    exact .ok _ _
  · -- an empty slice is short of one bit, not of `n`
    exact .refused s rfl rfl

/-- **An amount** read byte by byte is that read as a number. -/
theorem agree_coins (hs : s.WellFormed) : Agree (loadCoins s) (loadVarNat 4 s) := by
  have hword := takes_word (by decide : 4 ≤ 64) s hs
  refine agree_bind (fun length t hlength => ?_) fun e t he => ?_
  · rw [hlength] at hword
    split at hword
    · next hle =>
      cases hword
      -- a length of four bits leaves no machine word in bits
      have hlt := Bits.toNat_lt (s.unpack.bits.take 4)
      rw [List.length_take_of_le hle] at hlt
      rw [Bits.toNat_toWord (by rw [List.length_take_of_le hle]; decide)]
      have hsmall : 8 * Bits.toNat (s.unpack.bits.take 4) < 2 ^ 64 := by omega
      have hbytes : Takes (loadBytes (Bits.toNat (s.unpack.bits.take 4)) >>=
          fun bytes => pure (Bytes.toNat bytes)) (8 * Bits.toNat (s.unpack.bits.take 4))
          fun bits => Bytes.toNat (Bits.pack bits) :=
        (takes_bytes hsmall).bind_pure fun _ _ => rfl
      rw [run_bind_of_ok (checkedLength_of_lt hsmall _)]
      exact hbytes.agree (takes_nat _) (hs.ahead_skip hle).wellFormed fun bits hl =>
        Bits.toNat_pack hl
    · cases hword
  · rw [he] at hword
    split at hword <;> cases hword
    rfl

/-- An amount has at most fifteen bytes. -/
theorem loadCoins_lt (hs : s.WellFormed) {amount : Nat} {t : PackedSlice}
    (h : loadCoins s = .ok amount t) : amount < 2 ^ 120 := by
  have hagree := agree_coins hs
  have houtcome := loadVarNat_outcome hs (n := 4) rfl
  rw [h] at hagree
  generalize loadVarNat 4 s = r at hagree houtcome
  cases hagree
  obtain ⟨-, hfits, -, rfl, -⟩ := houtcome
  have hlength := Bits.toNat_lt (s.unpack.bits.take 4)
  rw [List.length_take_of_le (by omega)] at hlength
  refine (Bits.toNat_lt _).trans_le (Nat.pow_le_pow_right (by decide) ?_)
  rw [List.length_take]
  omega

/-- **A number of variable length** is read in either way; one that is too large for a machine word
is refused then. -/
theorem loadVarWord_of_ok {value : Nat} {t : PackedSlice} (h : loadVarNat n s = .ok value t) :
    loadVarWord n s = if value < 2 ^ 64 then .ok (UInt64.ofNat value) t
      else .error (.valueOutOfRange (.variableWord value)) t := by
  rw [loadVarWord, run_bind_of_ok h, Bits.bound_eq]
  split <;> rfl

/-- A length of at most 60 bits leaves no machine word in bits, so only what is missing is
refused. -/
theorem isRefusal_of_loadVarNat (hs : s.WellFormed) (hn : n ≤ 60) {e : CellError}
    {t : PackedSlice} (h : loadVarNat n s = .error e t) : e.isRefusal = true := by
  have hmatches := follows_loadVarNat n (fun _ : True => hn) s hs
  rw [h] at hmatches
  generalize Slice.loadVarNat n s.unpack = r at hmatches
  cases hmatches with
  | error _ he => exact he trivial

end PackedSlice

/-! ## Both, after any calls -/

open PackedBuilder PackedSlice in
/-- **Machine words and numbers of any size agree.** After any stores, a machine word is stored as
the number it is, and either store refuses a value for its range exactly if the width does not hold
it. After any loads from a made cell, machine words of up to 64 bits and amounts are loaded as the
numbers they are; a number of variable length with up to 60 bits of length is loaded as a machine
word too, or refused behind it if it is none. -/
theorem words_agree (ops : List StoreOp) {cell : Cell} (made : cell.Made)
    (calls : List LoadCall) :
    let b := StoreOp.history ops
    let s := LoadCall.runAll calls (.ofCell cell)
    (∀ (word : UInt64) width,
      Agree (storeWord word width b) (storeNat word.toNat width b) ∧
      (Refused .valueOutOfRange (storeWord word width b) ↔ ¬ word.toNat < 2 ^ width)) ∧
    (∀ (word : Int64) width,
      Agree (storeSignedWord word width b) (storeInt word.toInt width b) ∧
      (Refused .valueOutOfRange (storeSignedWord word width b) ↔
        ¬ StoreCall.InSignedRange word.toInt width)) ∧
    (∀ (value : Nat) width,
      Refused .valueOutOfRange (storeNat value width b) ↔ ¬ value < 2 ^ width) ∧
    (∀ (value : Int) width,
      Refused .valueOutOfRange (storeInt value width b) ↔
        ¬ StoreCall.InSignedRange value width) ∧
    (∀ n ≤ 64, Agree ((UInt64.toNat <$> loadWord n) s) (loadNat n s)) ∧
    (∀ n ≤ 64, Agree ((Int64.toInt <$> loadSignedWord n) s) (loadInt n s)) ∧
    (Agree (loadCoins s) (loadVarNat 4 s) ∧ ∀ amount t, loadCoins s = .ok amount t →
      amount < 2 ^ 120) ∧
    ∀ n ≤ 60, match loadVarNat n s with
      | .ok value t => if value < 2 ^ 64
        then ∃ word, loadVarWord n s = .ok word t ∧ word.toNat = value
        else ∃ cause, loadVarWord n s = .error (.valueOutOfRange cause) t
      | .error e t => loadVarWord n s = .error e t ∧ e.isRefusal = true := by
  obtain ⟨b, hb, heq⟩ := StoreOp.exists_history ops
  have hs := (LoadCall.runAll_wellFormed calls (wellFormed_ofCell made)).1
  dsimp only
  rw [heq]
  generalize LoadCall.runAll calls (.ofCell cell) = s at hs
  refine ⟨fun word width => ?_, fun word width => ?_, fun value width => ?_, fun value width => ?_,
    fun n hn => agree_word hs hn, fun n hn => agree_signedWord hs hn,
    ⟨agree_coins hs, fun _ _ => loadCoins_lt hs⟩, fun n hn => ?_⟩
  · have hranged := Builder.ranged_storeWord word width
    rw [(performs_storeWord word width).refused_iff hb, hranged.refused_iff]
    exact ⟨(performs_storeWord word width).agree (performs_storeNat _ _) hb
      (hranged.agree (Builder.ranged_storeNat _ _) b), Iff.rfl⟩
  · have hranged := Builder.ranged_storeSignedWord word width
    rw [(performs_storeSignedWord word width).refused_iff hb, hranged.refused_iff]
    exact ⟨(performs_storeSignedWord word width).agree (performs_storeInt _ _) hb
      (hranged.agree (Builder.ranged_storeInt _ _) b), Iff.rfl⟩
  · rw [(performs_storeNat value width).refused_iff hb,
      (Builder.ranged_storeNat value width).refused_iff]
  · rw [(performs_storeInt value width).refused_iff hb,
      (Builder.ranged_storeInt value width).refused_iff]
  · cases hload : loadVarNat n s with
    | ok value t =>
      have hword := loadVarWord_of_ok hload
      dsimp only
      split
      · next hlt =>
        rw [if_pos hlt] at hword
        exact ⟨_, hword, UInt64.toNat_ofNat_of_lt' hlt⟩
      · next hge =>
        rw [if_neg hge] at hword
        exact ⟨_, hword⟩
    | error e t => exact ⟨run_bind_of_error hload, isRefusal_of_loadVarNat hs hn hload⟩

/-- A word that is too large for three bits, and words of the cell of one bits from within a byte
on. -/
theorem words_agree_onesCell :
    LoadCall.onesCell.Made ∧
    Refused .valueOutOfRange (PackedBuilder.storeWord 8 3 (StoreOp.history [.call (.bit true)])) ∧
    Agree ((Int64.toInt <$> PackedSlice.loadSignedWord 61)
        (LoadCall.runAll [.skipBits 3] (.ofCell LoadCall.onesCell)))
      (PackedSlice.loadInt 61 (LoadCall.runAll [.skipBits 3] (.ofCell LoadCall.onesCell))) := by
  obtain ⟨hword, -, -, -, -, hsigned, -⟩ :=
    words_agree [.call (.bit true)] LoadCall.made_onesCell [.skipBits 3]
  exact ⟨LoadCall.made_onesCell, (hword 8 3).2.mpr (by decide), hsigned 61 (by decide)⟩

end BagOfCells
