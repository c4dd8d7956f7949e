import BagOfCells.Proofs.Slice.Exact

/-!
# Loads of any length

Some loads are told how much to read, by their argument or by a length in the data, and neither is
bounded. What is asked for is counted in bits and held against what is left, so a load gives a value
exactly if all of it is there. But a length in bytes is multiplied by eight before it is held
against anything: where the product leaves a machine word, the load has no answer.

## Main definitions

* `LoadCall.Measured`: the loads that are told how much to read
* `LoadCall.asked`, `LoadCall.passed`: how many bits and references a load asks for
* `LoadCall.Fits`, `LoadCall.Wraps`: all of it is there; the count of bits leaves a machine word
* `LoadCall.Obeys`: what a load gives, and how it fails

## Main results

* `PackedSlice.loadBytes_of_le`, `PackedSlice.loadVarNat_eq`: loads whose count of bits may wrap
* `LoadCall.obeys`, `LoadCall.history_measured`: every load, and every load after any calls
-/

namespace BagOfCells

open Outcome

namespace PackedSlice

variable {s : PackedSlice} {n : Nat}

/-! ## Lengths in bytes -/

theorem checkedLength_of_le (h : 2 ^ 64 ≤ n) (s : PackedSlice) :
    (checkedLength n : PackedLoad Nat) s = .error .overflow s := by
  rw [checkedLength, Bits.bound_eq, if_neg (Nat.not_lt.mpr h)]
  rfl

theorem checkedLength_of_lt (h : n < 2 ^ 64) (s : PackedSlice) :
    (checkedLength n : PackedLoad Nat) s = .ok n s := by
  rw [checkedLength, Bits.bound_eq, if_pos h]
  rfl

theorem loadBytes_of_le (h : 2 ^ 64 ≤ 8 * n) (s : PackedSlice) :
    loadBytes n s = .error .overflow s :=
  run_bind_of_error (checkedLength_of_le h s)

theorem loadWord_of_gt (h : 64 < n) (s : PackedSlice) :
    loadWord n s = .error (.valueOutOfRange (.wordLoad n)) s := by
  rw [loadWord, peekWord, if_pos h]
  rfl

theorem skip_skip (s : PackedSlice) (m n : Nat) : (s.skip m).skip n = s.skip (m + n) := by
  simp only [skip, Nat.add_assoc]

/-- **A number of variable length**, by its length. -/
theorem loadVarNat_eq (hs : s.WellFormed) (hn : n ≤ 64) {length : Nat}
    (hlength : Bits.toNat (s.unpack.bits.take n) = length) :
    loadVarNat n s =
      if n ≤ s.unpack.bits.length then
        if 2 ^ 64 ≤ 8 * length then .error .overflow (s.skip n)
        else if n + 8 * length ≤ s.unpack.bits.length then
          .ok (Bits.toNat ((s.unpack.bits.drop n).take (8 * length))) (s.skip (n + 8 * length))
        else .error (.underflow (8 * length) (s.unpack.bits.length - n)) (s.skip n)
      else .error (.underflow n s.unpack.bits.length) s := by
  have hword := takes_word hn s hs
  unfold loadVarNat
  by_cases hleft : n ≤ s.unpack.bits.length
  · rw [if_pos hleft] at hword ⊢
    have hvalue : (Bits.toWord (s.unpack.bits.take n)).toNat = length := by
      rw [Bits.toNat_toWord (by rwa [List.length_take_of_le hleft]), hlength]
    rw [run_bind_of_ok hword, hvalue]
    by_cases hlarge : 2 ^ 64 ≤ 8 * length
    · rw [if_pos hlarge]
      exact run_bind_of_error (checkedLength_of_le hlarge _)
    · have hnat := takes_nat (8 * length) _ (hs.ahead_skip hleft).wellFormed
      rw [if_neg hlarge, run_bind_of_ok (checkedLength_of_lt (Nat.not_le.mp hlarge) _), hnat,
        unpack_skip, List.length_drop, skip_skip]
      -- what is left behind the length is held against the number
      exact if_congr (by omega) rfl rfl
  · rw [if_neg hleft] at hword ⊢
    exact run_bind_of_error hword

theorem loadVarNat_of_gt (h : 64 < n) (s : PackedSlice) :
    loadVarNat n s = .error (.valueOutOfRange (.wordLoad n)) s :=
  run_bind_of_error (loadWord_of_gt h s)

/-- A number of variable length is there exactly if its length is one and all its bytes are left. -/
theorem loadVarNat_outcome (hs : s.WellFormed) {length : Nat}
    (hlength : Bits.toNat (s.unpack.bits.take n) = length) :
    match loadVarNat n s with
    | .ok value t => n ≤ 64 ∧ n + 8 * length ≤ s.unpack.bits.length ∧ 8 * length < 2 ^ 64 ∧
        value = Bits.toNat ((s.unpack.bits.drop n).take (8 * length)) ∧ t = s.skip (n + 8 * length)
    | .error e _ => ¬ (n ≤ 64 ∧ n + 8 * length ≤ s.unpack.bits.length) ∧
        (e = .overflow ↔ n ≤ 64 ∧ n ≤ s.unpack.bits.length ∧ 2 ^ 64 ≤ 8 * length) ∧
        (e = .overflow ∨ e.isRefusal = true) := by
  by_cases hn : n ≤ 64
  · rw [loadVarNat_eq hs hn hlength]
    by_cases hleft : n ≤ s.unpack.bits.length
    · rw [if_pos hleft]
      by_cases hlarge : 2 ^ 64 ≤ 8 * length
      · rw [if_pos hlarge]
        -- no cell holds as many bits
        have hlt : s.unpack.bits.length < 2 ^ 64 := by
          have := hs.bits_lt
          rw [Bits.bound_eq] at this
          rw [length_unpack_bits]
          omega
        exact ⟨fun h => by omega, iff_of_true rfl ⟨hn, hleft, hlarge⟩, .inl rfl⟩
      · rw [if_neg hlarge]
        by_cases hfits : n + 8 * length ≤ s.unpack.bits.length
        · rw [if_pos hfits]
          exact ⟨hn, hfits, Nat.not_le.mp hlarge, rfl, rfl⟩
        · rw [if_neg hfits]
          exact ⟨fun h => hfits h.2, iff_of_false nofun fun h => hlarge h.2.2, .inr rfl⟩
    · rw [if_neg hleft]
      exact ⟨fun h => by omega, iff_of_false nofun fun h => hleft h.2.1, .inr rfl⟩
  · rw [loadVarNat_of_gt (Nat.not_le.mp hn)]
    exact ⟨fun h => hn h.1, iff_of_false nofun fun h => hn h.1, .inr rfl⟩

/-- **References** are passed over if there are as many. -/
theorem skipRefs_eq (hs : s.WellFormed) (n : Nat) :
    skipRefs n s =
      if n ≤ s.unpack.refs.length then .ok () (s.pass n)
      else .error (.referenceOutOfRange (n - 1) s.unpack.refs.length) s := by
  rw [skipRefs, run_bind_of_ok (remainingRefs_eq hs)]
  by_cases h : n ≤ s.unpack.refs.length
  · rw [if_neg (Nat.not_lt.mpr h), if_pos h]
    rfl
  · rw [if_pos (Nat.not_le.mp h), if_neg h, Checked.minus_eq_ok (by omega)]
    rfl

end PackedSlice

namespace LoadCall

open PackedSlice

variable {s : PackedSlice} {call : LoadCall}

/-! ## What is asked for -/

/-- The loads that are told how much to read, by their argument or by a length in the data. -/
def Measured : LoadCall → Prop
  | .bytes _ | .word _ | .nat _ | .skipBits _ | .skipRefs _ | .varWord _ | .varNat _ => True
  | _ => False

/-- How many bits a load asks for where some are left: a length in front counts bytes. -/
def asked (left : Bits) : LoadCall → Nat
  | .bytes n => 8 * n
  | .word n | .nat n | .skipBits n => n
  | .varWord n | .varNat n => n + 8 * Bits.toNat (left.take n)
  | _ => 0

/-- How many references a load asks for. -/
def passed : LoadCall → Nat
  | .skipRefs n => n
  | _ => 0

/-- What the bits asked for stand for. -/
def given (bits : Bits) : LoadCall → Loaded
  | .varWord n => .word (UInt64.ofNat (Bits.toNat (bits.drop n)))
  | .varNat n => .nat (Bits.toNat (bits.drop n))
  | call => call.decode bits

/-- A length is read as a machine word, and a machine word holds 64 bits. -/
def Holds (left : Bits) : LoadCall → Prop
  | .word n | .varNat n => n ≤ 64
  | .varWord n =>
    n ≤ 64 ∧ Bits.toNat ((left.drop n).take (8 * Bits.toNat (left.take n))) < 2 ^ 64
  | _ => True

/-- All that is asked for is left. -/
def Fits (call : LoadCall) (s : PackedSlice) : Prop :=
  call.asked s.unpack.bits ≤ s.unpack.bits.length ∧ call.passed ≤ s.unpack.refs.length

/-- A length in bytes is there whose bits a machine word does not count. -/
def Wraps (left : Bits) : LoadCall → Prop
  | .bytes n => 2 ^ 64 ≤ 8 * n
  | .varWord n | .varNat n =>
    n ≤ 64 ∧ n ≤ left.length ∧ 2 ^ 64 ≤ 8 * Bits.toNat (left.take n)
  | _ => False

/-- A load gives what the bits it asks for stand for, exactly if all it asks for is left and the
value holds it, and moves on by just that. If it fails it is refused, but where a count of bits
leaves a machine word. -/
structure Obeys (call : LoadCall) (s : PackedSlice) : Prop where
  ok : ∀ value t, call.run s = .ok value t →
    call.Holds s.unpack.bits ∧ call.Fits s ∧ ¬ call.Wraps s.unpack.bits ∧
      value = call.given (s.unpack.bits.take (call.asked s.unpack.bits)) ∧
      t = (s.skip (call.asked s.unpack.bits)).pass call.passed
  error : ∀ e t, call.run s = .error e t →
    ¬ (call.Holds s.unpack.bits ∧ call.Fits s) ∧ (e = .overflow ↔ call.Wraps s.unpack.bits) ∧
      (e = .overflow ∨ e.isRefusal = true)

/-- Where a count of bits leaves a machine word, there is no answer. -/
theorem Obeys.overflow (h : call.Obeys s) (hwraps : call.Wraps s.unpack.bits) :
    ∃ t, call.run s = .error .overflow t := by
  cases hrun : call.run s with
  | ok value t =>
    obtain ⟨-, -, hnot, -⟩ := h.ok value t hrun
    exact absurd hwraps hnot
  | error e t =>
    obtain ⟨-, hoverflow, -⟩ := h.error e t hrun
    exact ⟨t, hoverflow.mpr hwraps ▸ rfl⟩

/-- Elsewhere what asks for more than is left is refused. -/
theorem Obeys.refusal (h : call.Obeys s) (hwraps : ¬ call.Wraps s.unpack.bits)
    (hfits : ¬ call.Fits s) : ∃ e t, call.run s = .error e t ∧ e.isRefusal = true := by
  cases hrun : call.run s with
  | ok value t =>
    obtain ⟨-, hall, -⟩ := h.ok value t hrun
    exact absurd hall hfits
  | error e t =>
    obtain ⟨-, hoverflow, he⟩ := h.error e t hrun
    exact ⟨e, t, rfl, he.resolve_left fun heq => hwraps (hoverflow.mp heq)⟩

/-! ## Each load -/

theorem obeys_of_ok {value : Loaded} {t : PackedSlice} (hrun : call.run s = .ok value t)
    (hholds : call.Holds s.unpack.bits) (hfits : call.Fits s)
    (hwraps : ¬ call.Wraps s.unpack.bits)
    (hvalue : value = call.given (s.unpack.bits.take (call.asked s.unpack.bits)))
    (ht : t = (s.skip (call.asked s.unpack.bits)).pass call.passed) : call.Obeys s := by
  constructor
  · intro value' t' hrun'
    rw [hrun] at hrun'
    cases hrun'
    exact ⟨hholds, hfits, hwraps, hvalue, ht⟩
  · intro e t' hrun'
    rw [hrun] at hrun'
    cases hrun'

theorem obeys_of_error {e : CellError} {t : PackedSlice} (hrun : call.run s = .error e t)
    (hfits : ¬ (call.Holds s.unpack.bits ∧ call.Fits s))
    (hwraps : e = .overflow ↔ call.Wraps s.unpack.bits)
    (he : e = .overflow ∨ e.isRefusal = true) : call.Obeys s := by
  constructor
  · intro value t' hrun'
    rw [hrun] at hrun'
    cases hrun'
  · intro e' t' hrun'
    rw [hrun] at hrun'
    cases hrun'
    exact ⟨hfits, hwraps, he⟩

theorem obeys_of_refusal {e : CellError} {t : PackedSlice} (hrun : call.run s = .error e t)
    (hfits : ¬ (call.Holds s.unpack.bits ∧ call.Fits s)) (he : e.isRefusal = true)
    (hwraps : ¬ call.Wraps s.unpack.bits) : call.Obeys s := by
  refine obeys_of_error hrun hfits (iff_of_false ?_ hwraps) (.inr he)
  rintro rfl
  cases he

/-- A load of the next `n` bits. -/
theorem obeys_of_takes {n : Nat} {value : Bits → Loaded} (hs : s.WellFormed)
    (h : Takes call.run n value) (hasked : call.asked s.unpack.bits = n)
    (hpassed : call.passed = 0) (hholds : call.Holds s.unpack.bits)
    (hwraps : ¬ call.Wraps s.unpack.bits)
    (hv : ∀ bits, bits.length = n → value bits = call.given bits) : call.Obeys s := by
  have hrun := h s hs
  by_cases hn : n ≤ s.unpack.bits.length
  · rw [if_pos hn] at hrun
    refine obeys_of_ok hrun hholds ⟨hasked.trans_le hn, hpassed.trans_le (Nat.zero_le _)⟩ hwraps
      ?_ ?_
    · rw [hasked]
      exact hv _ (List.length_take_of_le hn)
    · rw [hasked, hpassed]
      rfl
  · rw [if_neg hn] at hrun
    exact obeys_of_refusal hrun (fun hfits => hn (hasked.symm.trans_le hfits.2.1)) rfl hwraps

theorem obeys_bytes (hs : s.WellFormed) (n : Nat) : Obeys (.bytes n) s := by
  by_cases h : 8 * n < 2 ^ 64
  · exact obeys_of_takes hs ((takes_bytes h).map _) rfl rfl trivial (Nat.not_le.mpr h)
      fun _ _ => rfl
  · rw [Nat.not_lt] at h
    refine obeys_of_error (run_map_of_error (loadBytes_of_le h s) _) (fun hfits => ?_)
      (iff_of_true rfl h) (.inl rfl)
    have hle : 8 * n ≤ s.unpack.bits.length := hfits.2.1
    have hlt := hs.bits_lt
    rw [length_unpack_bits] at hle
    rw [Bits.bound_eq] at hlt
    omega

theorem obeys_word (hs : s.WellFormed) (n : Nat) : Obeys (.word n) s := by
  by_cases h : n ≤ 64
  · exact obeys_of_takes hs ((takes_word h).map _) rfl rfl h id fun bits hl =>
      congrArg _ (toWord_eq_ofNat (hl ▸ h))
  · exact obeys_of_refusal (run_map_of_error (loadWord_of_gt (Nat.not_le.mp h) s) _)
      (fun hfits => h hfits.1) rfl id

theorem obeys_skipRefs (hs : s.WellFormed) (n : Nat) : Obeys (.skipRefs n) s := by
  have hrun := skipRefs_eq hs n
  by_cases h : n ≤ s.unpack.refs.length
  · rw [if_pos h] at hrun
    exact obeys_of_ok (run_map_of_ok hrun _) trivial ⟨Nat.zero_le _, h⟩ id rfl rfl
  · rw [if_neg h] at hrun
    exact obeys_of_refusal (run_map_of_error hrun _) (fun hfits => h hfits.2.2) rfl id

theorem obeys_varNat (hs : s.WellFormed) (n : Nat) : Obeys (.varNat n) s := by
  have houtcome := loadVarNat_outcome hs (n := n) rfl
  cases hload : loadVarNat n s with
  | ok value t =>
    rw [hload] at houtcome
    obtain ⟨hn, hfits, hsmall, rfl, rfl⟩ := houtcome
    refine obeys_of_ok (run_map_of_ok hload _) hn ⟨hfits, Nat.zero_le _⟩
      (fun h => Nat.not_lt.mpr h.2.2 hsmall) ?_ rfl
    rw [asked, given, List.drop_take, Nat.add_sub_cancel_left]
  | error e t =>
    rw [hload] at houtcome
    obtain ⟨hfits, hwraps, he⟩ := houtcome
    exact obeys_of_error (run_map_of_error hload _) (fun h => hfits ⟨h.1, h.2.1⟩) hwraps he

theorem obeys_varWord (hs : s.WellFormed) (n : Nat) : Obeys (.varWord n) s := by
  have houtcome := loadVarNat_outcome hs (n := n) rfl
  cases hload : loadVarNat n s with
  | ok value t =>
    rw [hload] at houtcome
    obtain ⟨hn, hfits, hsmall, hvalue, rfl⟩ := houtcome
    have hwraps : ¬ Wraps s.unpack.bits (.varWord n) := fun h => Nat.not_lt.mpr h.2.2 hsmall
    have hrun : loadVarWord n s = if value < Bits.bound 64 then
        .ok (UInt64.ofNat value) (s.skip (n + 8 * Bits.toNat (s.unpack.bits.take n)))
      else .error (.valueOutOfRange (.variableWord value))
        (s.skip (n + 8 * Bits.toNat (s.unpack.bits.take n))) := by
      rw [loadVarWord, run_bind_of_ok hload]
      split <;> rfl
    rw [Bits.bound_eq] at hrun
    by_cases hword : value < 2 ^ 64
    · rw [if_pos hword] at hrun
      refine obeys_of_ok (run_map_of_ok hrun _) ⟨hn, hvalue ▸ hword⟩ ⟨hfits, Nat.zero_le _⟩ hwraps
        ?_ rfl
      rw [hvalue, asked, given, List.drop_take, Nat.add_sub_cancel_left]
    · -- the number is read but is none of a machine word
      rw [if_neg hword] at hrun
      exact obeys_of_refusal (run_map_of_error hrun _) (fun h => hword (hvalue ▸ h.1.2)) rfl hwraps
  | error e t =>
    rw [hload] at houtcome
    obtain ⟨hfits, hwraps, he⟩ := houtcome
    exact obeys_of_error (run_map_of_error (run_bind_of_error hload) _)
      (fun h => hfits ⟨h.1.1, h.2.1⟩) hwraps he

/-- **Each load** that is told how much to read. -/
theorem obeys (hs : s.WellFormed) (hc : call.Measured) : call.Obeys s := by
  cases call with
  | bytes n => exact obeys_bytes hs n
  | word n => exact obeys_word hs n
  | nat n => exact obeys_of_takes hs ((takes_nat n).map _) rfl rfl trivial id fun _ _ => rfl
  | skipBits n =>
    exact obeys_of_takes hs ((takes_skipBits n).map _) rfl rfl trivial id fun _ _ => rfl
  | skipRefs n => exact obeys_skipRefs hs n
  | varWord n => exact obeys_varWord hs n
  | varNat n => exact obeys_varNat hs n
  | _ => exact hc.elim

/-- **Loads of any length.** After any calls on a slice of a made cell, whether they failed or not,
a load that is told how much to read gives a value exactly if all of it is left and the value holds
it, and then just what the bits it asks for stand for. Otherwise it is refused, but for a length in
bytes whose bits a machine word does not count: there it has no answer. -/
theorem history_measured {cell : Cell} (made : cell.Made) (calls : List LoadCall)
    (call : LoadCall) (measured : call.Measured) : call.Obeys (runAll calls (.ofCell cell)) :=
  obeys (runAll_wellFormed calls (wellFormed_ofCell made)).1 measured

/-- A cell of 64 one bits. -/
def onesCell : Cell :=
  let data : Bytes := List.replicate 8 0xff
  let hash : LevelHash := ⟨sha256 ([0, 16] ++ data), 0⟩
  .mk .ordinary (Bits.ofBytes data) [] .empty ⟨hash, hash, hash, hash⟩

theorem made_onesCell : onesCell.Made :=
  have h : Cell.ofBytes .ordinary (List.replicate 8 0xff) 64 [] = .ok onesCell := rfl
  .ofBytes (by simp) h

/-- The greatest length of 64 bits wraps; the greatest count of bits is refused. -/
theorem history_measured_onesCell :
    onesCell.Made ∧ (∃ t, run (.varNat 64) (.ofCell onesCell) = .error .overflow t) ∧
      ∃ e t, run (.nat (2 ^ 64 - 1)) (.ofCell onesCell) = .error e t ∧ e.isRefusal = true := by
  have hvar : Obeys (.varNat 64) (.ofCell onesCell) :=
    history_measured made_onesCell [] (.varNat 64) trivial
  have hnat : Obeys (.nat (2 ^ 64 - 1)) (.ofCell onesCell) :=
    history_measured made_onesCell [] (.nat (2 ^ 64 - 1)) trivial
  refine ⟨made_onesCell, hvar.overflow ⟨le_rfl, by decide, by decide⟩, hnat.refusal id ?_⟩
  rintro ⟨hle, -⟩
  exact absurd hle (by decide)

end LoadCall

end BagOfCells
