import BagOfCells.Proofs.Slice.Packed

/-!
# Exact reads

Whatever calls have been made on a slice, and whether they failed or not, its positions are within
its cell. So a call goes back only to start again, and is refused where it gives no value, but for
one: making a cell of what is left has no answer where some depth leaves two bytes, although what is
left is that of a cell. A read of bits gives just the next ones in its encoding, and underflows
exactly when there are fewer; a single read does all or nothing.

## Main definitions

* `LoadCall.width?`, `LoadCall.decode`: how many bits a read asks for, and what they stand for
* `LoadCall.Exact call n s`: a call that reads the next `n` bits
* `LoadCall.Single`: reads that do all or nothing
* `PackedSlice.Overdeep`: a rest that no cell is made of

## Main results

* `LoadCall.exact_of_width`, `LoadCall.atomic`: what a read gives, and what it leaves
* `LoadCall.ahead`, `LoadCall.run_eq_failure_iff`: what every call leaves, and where it is refused
* `LoadCall.history_exact`: every call after any calls
-/

namespace BagOfCells

open Outcome

namespace PackedSlice

variable {s : PackedSlice} {α β : Type} {load : PackedLoad α} {n : Nat} {value : Bits → α}

/-! ## All or nothing -/

/-- A load that fails has moved nowhere. -/
def Atomic (load : PackedLoad α) : Prop :=
  ∀ s : PackedSlice, s.WellFormed → ∀ e t, load s = .error e t → t = s

theorem run_map_of_ok {a : α} {t : PackedSlice} (h : load s = .ok a t) (f : α → β) :
    (f <$> load) s = .ok (f a) t := by
  rw [map_eq_pure_bind, run_bind_of_ok h]
  rfl

theorem run_map_of_error {e : CellError} {t : PackedSlice} (h : load s = .error e t)
    (f : α → β) : (f <$> load) s = .error e t := by
  rw [map_eq_pure_bind, run_bind_of_error h]

theorem run_map_eq_error_iff {e : CellError} {t : PackedSlice} (f : α → β) :
    (f <$> load) s = .error e t ↔ load s = .error e t := by
  refine ⟨fun h => ?_, fun h => run_map_of_error h f⟩
  cases hload : load s with
  | ok a u =>
    rw [run_map_of_ok hload] at h
    cases h
  | error e' u =>
    rw [run_map_of_error hload] at h
    cases h
    rfl

theorem Peeks.map (h : Peeks load n value) (f : α → β) :
    Peeks (f <$> load) n fun bits => f (value bits) := by
  intro s hs
  have hload := h s hs
  by_cases hn : n ≤ s.unpack.bits.length
  · rw [if_pos hn] at hload ⊢
    exact run_map_of_ok hload f
  · rw [if_neg hn] at hload ⊢
    exact run_map_of_error hload f

theorem Takes.map (h : Takes load n value) (f : α → β) :
    Takes (f <$> load) n fun bits => f (value bits) := by
  rw [map_eq_pure_bind]
  exact h.bind_pure fun _ _ => rfl

theorem Peeks.atomic (h : Peeks load n value) : Atomic load := by
  intro s hs e t ht
  rw [h s hs] at ht
  split at ht <;> cases ht
  rfl

theorem Takes.atomic (h : Takes load n value) : Atomic load := by
  intro s hs e t ht
  rw [h s hs] at ht
  split at ht <;> cases ht
  rfl

theorem Atomic.map (h : Atomic load) (f : α → β) : Atomic (f <$> load) :=
  fun s hs e t ht => h s hs e t ((run_map_eq_error_iff f).mp ht)

/-! ## Signed numbers -/

/-- **A number in two's complement**; an empty slice is short of its sign. -/
theorem loadInt_eq (hs : s.WellFormed) (width : Nat) : loadInt width s =
    if width ≤ s.unpack.bits.length then
      .ok (Bits.toInt (s.unpack.bits.take width)) (s.skip width)
    else .error (.underflow (if s.unpack.bits = [] then 1 else width) s.unpack.bits.length) s := by
  unfold loadInt
  by_cases hw : width = 0
  · subst hw
    rw [if_pos rfl, if_pos (Nat.zero_le _)]
    rfl
  rw [if_neg hw]
  have hsign := peeks_word (by decide : 1 ≤ 64) s hs
  have hnat := takes_nat width s hs
  cases hbits : s.unpack.bits with
  | nil =>
    rw [hbits, if_neg (by decide)] at hsign
    rw [run_bind_of_error hsign, if_neg (by rw [List.length_nil]; omega), if_pos rfl]
  | cons sign bits =>
    rw [hbits, if_pos (by simp)] at hsign
    rw [hbits] at hnat
    rw [run_bind_of_ok hsign]
    by_cases hle : width ≤ (sign :: bits).length
    · rw [if_pos hle] at hnat ⊢
      rw [run_bind_of_ok hnat]
      have hvalue : Bits.toInt ((sign :: bits).take width) =
          if Bits.toWord ((sign :: bits).take 1) = 1 then
            (Bits.toNat ((sign :: bits).take width) : Int) - Bits.bound width
          else Bits.toNat ((sign :: bits).take width) := by
        rw [Bits.toInt, List.length_take_of_le hle]
        obtain ⟨width, rfl⟩ := Nat.exists_eq_succ_of_ne_zero hw
        cases sign <;> rfl
      rw [hvalue]
      split <;> rfl
    · rw [if_neg hle] at hnat ⊢
      rw [run_bind_of_error hnat, if_neg (List.cons_ne_nil sign bits)]

theorem atomic_int (width : Nat) : Atomic (loadInt width) := by
  intro s hs e t ht
  rw [loadInt_eq hs] at ht
  split at ht <;> cases ht
  rfl

/-! ## Other reads -/

theorem loadRemainingBits_eq (hs : s.WellFormed) : loadRemainingBits s =
    .ok (Bits.pack s.unpack.bits) (s.skip s.unpack.bits.length) := by
  rw [loadRemainingBits, run_bind_of_ok (remainingBits_eq hs), takes_bits _ s hs, if_pos le_rfl,
    List.take_length]

theorem atomic_remainingBits : Atomic loadRemainingBits := by
  intro s hs e t ht
  rw [loadRemainingBits_eq hs] at ht
  cases ht

/-- A word of more bits than there are in one is refused at once. -/
theorem atomic_peekWord (width : Nat) : Atomic (peekWord width) := by
  by_cases h : width ≤ 64
  · exact (peeks_word h).atomic
  · intro s hs e t ht
    rw [peekWord, if_pos (not_le.mp h)] at ht
    cases ht
    rfl

theorem atomic_word (width : Nat) : Atomic (loadWord width) := by
  by_cases h : width ≤ 64
  · exact (takes_word h).atomic
  · intro s hs e t ht
    rw [loadWord, peekWord, if_pos (not_le.mp h)] at ht
    cases ht
    rfl

theorem atomic_signedWord (width : Nat) : Atomic (loadSignedWord width) := by
  by_cases h : width ≤ 64
  · exact (takes_signedWord h).atomic
  · intro s hs e t ht
    rw [loadSignedWord, if_pos (not_le.mp h)] at ht
    cases ht
    rfl

theorem atomic_peekRef (index : Nat) : Atomic (peekRef index) := by
  intro s hs e t ht
  cases h : s.unpack.refs[index]? with
  | some ref =>
    rw [peekRef_of_some hs h] at ht
    cases ht
  | none =>
    rw [peekRef_of_none hs h] at ht
    cases ht
    rfl

theorem atomic_ref : Atomic loadRef := by
  intro s hs e t ht
  cases h : s.unpack.refs[0]? with
  | some ref =>
    rw [loadRef_of_some hs h] at ht
    cases ht
  | none =>
    rw [loadRef_of_none hs h] at ht
    cases ht
    rfl

theorem atomic_skipRefs (n : Nat) : Atomic (skipRefs n) := by
  intro s hs e t ht
  rw [skipRefs, run_bind_of_ok (remainingRefs_eq hs)] at ht
  split at ht
  · rw [Checked.minus_eq_ok (by omega)] at ht
    cases ht
    rfl
  · cases ht

/-! ## The cell of a rest -/

/-- A rest that must be made into a cell of its own, some depth of which leaves two bytes. -/
def Overdeep (s : PackedSlice) : Prop :=
  ¬ s.Fresh ∧ Cell.Overdeep .ordinary (Layout.ordinaryMask s.unpack.refs) s.unpack.refs

/-- **What is left of a cell** makes a cell unless some depth leaves two bytes. -/
theorem toCell_eq_error_iff (hs : s.WellFormed) {e : CellError} :
    (∃ t, toCell s = .error e t) ↔ e = .overflow ∧ s.Overdeep := by
  by_cases hf : s.Fresh
  · rw [toCell_of_fresh hf]
    exact iff_of_false (fun h => nomatch h.choose_spec) fun h => h.2.1 hf
  have hbits : s.unpack.bits.length ≤ Cell.maxBits :=
    (length_unpack_bits s).trans_le ((Nat.sub_le ..).trans hs.made.sound.bits_le)
  have hrefs : s.unpack.refs.length ≤ Cell.maxRefs :=
    (length_unpack_refs s).trans_le ((Nat.sub_le ..).trans hs.made.sound.refs_le)
  rw [toCell_of_not_fresh hs hf]
  rcases Cell.make_ordinary_or_overdeep hbits hrefs with ⟨cell, hmake, hcell⟩ | ⟨hmake, hdeep⟩
  · rw [hmake]
    refine iff_of_false (fun h => nomatch h.choose_spec) fun h => ?_
    have hshallow := (Cell.sound_of_make hmake).shallow
    rw [hcell, Cell.kind_make hmake, Cell.refs_make hmake] at hshallow
    exact hshallow h.2.2
  · rw [hmake]
    constructor
    · rintro ⟨t, ht⟩
      cases ht
      exact ⟨rfl, hf, hdeep⟩
    · rintro ⟨rfl, -⟩
      exact ⟨_, rfl⟩

end PackedSlice

namespace LoadCall

open PackedSlice

variable {s : PackedSlice} {call : LoadCall}

/-! ## Reads of bits -/

/-- How many bits a read asks for where some are left, if it reads bits alone; a word holds no more
than 64. -/
def width? (left : Nat) : LoadCall → Option Nat
  | .bit => some 1
  | .peekBits n | .bits n | .skipBits n | .nat n | .int n => some n
  | .bytes n => some (8 * n)
  | .remainingBits => some left
  | .peekWord n | .word n | .signedWord n => if n ≤ 64 then some n else none
  | _ => none

/-- What the bits that are read stand for. -/
def decode (bits : Bits) : LoadCall → Loaded
  | .bit => .bit (bits.headD false)
  | .peekBits _ | .bits _ | .bytes _ | .remainingBits => .bytes (Bits.pack bits)
  | .peekWord _ | .word _ => .word (UInt64.ofNat bits.toNat)
  | .signedWord _ => .signedWord (Int64.ofInt bits.toInt)
  | .nat _ => .nat bits.toNat
  | .int _ => .int bits.toInt
  | _ => .nothing

/-- Whether a read leaves the bits in place. -/
def peeks : LoadCall → Bool
  | .peekBits _ | .peekWord _ => true
  | _ => false

/-- A call gives what the next `n` bits stand for, and moves on behind them unless it leaves them in
place; it underflows exactly when there are fewer, and then moves nowhere. -/
structure Exact (call : LoadCall) (n : Nat) (s : PackedSlice) : Prop where
  ok : n ≤ s.unpack.bits.length →
    call.run s = .ok (call.decode (s.unpack.bits.take n)) (if call.peeks then s else s.skip n)
  underflow : s.unpack.bits.length < n →
    ∃ requested, call.run s = .error (.underflow requested s.unpack.bits.length) s

theorem exact_of_peeks {n : Nat} {value : Bits → Loaded} (hs : s.WellFormed)
    (h : Peeks call.run n value) (hp : call.peeks = true)
    (hv : ∀ bits, bits.length = n → value bits = call.decode bits) : Exact call n s := by
  have hrun := h s hs
  refine ⟨fun hn => ?_, fun hn => ⟨n, ?_⟩⟩
  · rw [hrun, if_pos hn, hp, hv _ (List.length_take_of_le hn)]
    rfl
  · rw [hrun, if_neg (not_le.mpr hn)]

theorem exact_of_takes {n : Nat} {value : Bits → Loaded} (hs : s.WellFormed)
    (h : Takes call.run n value) (hp : call.peeks = false)
    (hv : ∀ bits, bits.length = n → value bits = call.decode bits) : Exact call n s := by
  have hrun := h s hs
  refine ⟨fun hn => ?_, fun hn => ⟨n, ?_⟩⟩
  · rw [hrun, if_pos hn, hp, hv _ (List.length_take_of_le hn)]
    rfl
  · rw [hrun, if_neg (not_le.mpr hn)]

theorem exact_int (hs : s.WellFormed) (width : Nat) : Exact (.int width) width s := by
  have hrun := loadInt_eq hs width
  refine ⟨fun hn => ?_, fun hn => ?_⟩
  · rw [if_pos hn] at hrun
    exact run_map_of_ok hrun _
  · rw [if_neg (not_le.mpr hn)] at hrun
    exact ⟨_, run_map_of_error hrun _⟩

theorem toWord_eq_ofNat {bits : Bits} (h : bits.length ≤ 64) :
    Bits.toWord bits = UInt64.ofNat bits.toNat := by
  rw [← Bits.toNat_toWord h, UInt64.ofNat_toNat]

/-- **A read of bits** gives just the next ones. -/
theorem exact_of_width (hs : s.WellFormed) (hb : call.Bounded) {n : Nat}
    (hw : call.width? s.unpack.bits.length = some n) : call.Exact n s := by
  cases call with
  | bit =>
    cases hw
    exact exact_of_takes hs (takes_bit.map _) rfl fun _ _ => rfl
  | peekBits count =>
    cases hw
    exact exact_of_peeks hs ((peeks_bits n).map _) rfl fun _ _ => rfl
  | bits count =>
    cases hw
    exact exact_of_takes hs ((takes_bits n).map _) rfl fun _ _ => rfl
  | bytes count =>
    cases hw
    have hlt : count < 2 ^ 60 := hb
    exact exact_of_takes hs ((takes_bytes (by omega)).map _) rfl fun _ _ => rfl
  | remainingBits =>
    cases hw
    have hrun := loadRemainingBits_eq hs
    exact ⟨fun _ => by rw [List.take_length]; exact run_map_of_ok hrun _,
      fun h => absurd h (lt_irrefl _)⟩
  | skipBits count =>
    cases hw
    exact exact_of_takes hs ((takes_skipBits n).map _) rfl fun _ _ => rfl
  | peekWord width =>
    obtain ⟨hle, rfl⟩ := Option.ite_some_none_eq_some.mp hw
    exact exact_of_peeks hs ((peeks_word hle).map _) rfl fun bits hl =>
      congrArg _ (toWord_eq_ofNat (hl ▸ hle))
  | word width =>
    obtain ⟨hle, rfl⟩ := Option.ite_some_none_eq_some.mp hw
    exact exact_of_takes hs ((takes_word hle).map _) rfl fun bits hl =>
      congrArg _ (toWord_eq_ofNat (hl ▸ hle))
  | signedWord width =>
    obtain ⟨hle, rfl⟩ := Option.ite_some_none_eq_some.mp hw
    exact exact_of_takes hs ((takes_signedWord hle).map _) rfl fun _ _ => rfl
  | nat width =>
    cases hw
    exact exact_of_takes hs ((takes_nat n).map _) rfl fun _ _ => rfl
  | int width =>
    cases hw
    exact exact_int hs n
  | _ => cases hw

/-! ## Single reads -/

/-- Reads of bits, of one reference, and steps over some. -/
def Single : LoadCall → Prop
  | .bit | .peekBits _ | .bits _ | .bytes _ | .remainingBits | .skipBits _ | .peekWord _ | .word _
  | .signedWord _ | .nat _ | .int _ | .ref | .peekRef _ | .skipRefs _ => True
  | _ => False

/-- **A single read** does all or nothing. -/
theorem atomic (hb : call.Bounded) (hc : call.Single) : Atomic call.run := by
  cases call with
  | bit => exact takes_bit.atomic.map _
  | peekBits n => exact (peeks_bits n).atomic.map _
  | bits n => exact (takes_bits n).atomic.map _
  | bytes n =>
    have hlt : n < 2 ^ 60 := hb
    exact (takes_bytes (by omega)).atomic.map _
  | remainingBits => exact atomic_remainingBits.map _
  | skipBits n => exact (takes_skipBits n).atomic.map _
  | peekWord width => exact (atomic_peekWord width).map _
  | word width => exact (atomic_word width).map _
  | signedWord width => exact (atomic_signedWord width).map _
  | nat width => exact (takes_nat width).atomic.map _
  | int width => exact (atomic_int width).map _
  | ref => exact atomic_ref.map _
  | peekRef index => exact (atomic_peekRef index).map _
  | skipRefs n => exact (atomic_skipRefs n).map _
  | _ => exact hc.elim

/-! ## Every call -/

/-- **A call** but for a reset leaves the positions within the cell, and neither of them further
back. -/
theorem ahead (hs : s.WellFormed) (hc : call ≠ .reset) : s.Ahead (left call s) := by
  have hmatches := follows call hc s hs
  unfold left
  generalize call.run s = r, call.runOnBits s.unpack = r' at hmatches
  cases hmatches with
  | ok _ h => exact h
  | error h _ => exact h

theorem left_wellFormed (hs : s.WellFormed) (call : LoadCall) :
    (left call s).WellFormed ∧ (left call s).cell = s.cell := by
  by_cases hc : call = .reset
  · subst hc
    exact ⟨wellFormed_ofCell hs.made, rfl⟩
  · have h := ahead hs hc
    exact ⟨h.wellFormed, h.cell⟩

/-- So do some calls. -/
theorem runAll_wellFormed (calls : List LoadCall) (hs : s.WellFormed) :
    (runAll calls s).WellFormed ∧ (runAll calls s).cell = s.cell := by
  induction calls generalizing s with
  | nil => exact ⟨hs, rfl⟩
  | cons call calls ih =>
    obtain ⟨hleft, hcell⟩ := left_wellFormed hs call
    obtain ⟨hrest, hrestCell⟩ := ih hleft
    exact ⟨hrest, hrestCell.trans hcell⟩

/-- **A call that gives no value** is refused, but where the cell of a rest is too deep. -/
theorem run_eq_failure_iff (hs : s.WellFormed) (hb : call.Bounded) {e : CellError}
    (he : e.isRefusal = false) :
    (∃ t, call.run s = .error e t) ↔ call = .toCell ∧ e = .overflow ∧ s.Overdeep := by
  by_cases hcell : call = .toCell
  · subst hcell
    rw [and_iff_right rfl, ← toCell_eq_error_iff hs]
    exact exists_congr fun t => run_map_eq_error_iff Loaded.cell
  · refine iff_of_false ?_ fun h => hcell h.1
    rintro ⟨t, ht⟩
    by_cases hreset : call = .reset
    · subst hreset
      cases ht
    · have hmatches := follows call hreset s hs
      rw [ht] at hmatches
      generalize call.runOnBits s.unpack = r at hmatches
      cases hmatches with
      | error _ h =>
        rw [h ⟨hb, hcell⟩] at he
        cases he

/-- **Reading is exact.** After any calls on a slice of a made cell, whether they failed or not, the
positions are within the cell. From there no call but a reset moves a position back. A call with
bounded arguments gives a value or is refused, but for one: no cell is made of a rest some depth of
which leaves two bytes, unless it is all of an ordinary cell. A read of bits gives just the next
ones and underflows exactly when there are fewer, and a single read that fails moves nowhere. -/
theorem history_exact {cell : Cell} (made : cell.Made) (calls : List LoadCall) :
    let s := runAll calls (.ofCell cell)
    s.cell = cell ∧ s.bitPosition ≤ cell.bits.length ∧ s.refPosition ≤ cell.refs.length ∧
    ∀ call : LoadCall,
      (call ≠ .reset → s.bitPosition ≤ (left call s).bitPosition ∧
        s.refPosition ≤ (left call s).refPosition) ∧
      (call.Bounded →
        (∀ t, call.run s ≠ .error .outOfBounds t) ∧
        ((∃ t, call.run s = .error .overflow t) ↔ call = .toCell ∧ s.Overdeep) ∧
        (∀ n, call.width? s.unpack.bits.length = some n → call.Exact n s) ∧
        (call.Single → ∀ e t, call.run s = .error e t → t = s)) := by
  obtain ⟨hs, hcell⟩ := runAll_wellFormed calls (wellFormed_ofCell made)
  have hbits := hs.bits
  have hrefs := hs.refs
  rw [hcell] at hbits hrefs
  refine ⟨hcell, hbits, hrefs, fun call => ⟨fun hc => ?_, fun hb => ?_⟩⟩
  · have h := ahead hs hc
    exact ⟨h.bits, h.refs⟩
  · refine ⟨fun t ht => ?_, ?_, fun n hw => exact_of_width hs hb hw, fun hc => atomic hb hc _ hs⟩
    · obtain ⟨-, he, -⟩ := (run_eq_failure_iff hs hb rfl).mp ⟨t, ht⟩
      cases he
    · rw [run_eq_failure_iff hs hb rfl, and_iff_right rfl]

/-- The mask, a hash and the depth 65535. -/
def deepData : Bytes := [1, 1] ++ List.replicate 32 0 ++ [0xff, 0xff]

/-- A pruned branch that stands for the deepest cell. -/
def deepBranch : Cell :=
  let own : LevelHash := ⟨sha256 (40 :: 72 :: deepData), 0⟩
  .mk .prunedBranch (Bits.ofBytes deepData) [] (.ofNat 1)
    ⟨⟨.ofBytes (List.replicate 32 0), 65535⟩, own, own, own⟩

/-- A Merkle proof of the cell in whose place it is. -/
def deepProof : Cell :=
  let data := 3 :: List.replicate 32 0 ++ [0xff, 0xff]
  let hash : LevelHash := ⟨sha256 ([9, 70] ++ data ++ [0, 0] ++ deepBranch.hash.bytes), 1⟩
  .mk .merkleProof (Bits.ofBytes data) [deepBranch] .empty ⟨hash, hash, hash, hash⟩

-- the bits are gone through one by one
set_option maxRecDepth 4000 in
theorem made_deepProof : deepProof.Made :=
  have hbranch : Cell.ofBytes .prunedBranch deepData 288 [] = .ok deepBranch := rfl
  have hproof : Cell.ofBytes .merkleProof (3 :: List.replicate 32 0 ++ [0xff, 0xff]) 280
      [deepBranch] = .ok deepProof := rfl
  .ofBytes (by simpa using .ofBytes (by simp) hbranch) hproof

/-- What is left of the proof is no cell, although nothing has been read. -/
theorem history_exact_deepProof : deepProof.Made ∧ (PackedSlice.ofCell deepProof).Overdeep ∧
    (∃ t, run .toCell (.ofCell deepProof) = .error .overflow t) ∧
    Exact (.word 8) 8 (.ofCell deepProof) := by
  have hdeep : (PackedSlice.ofCell deepProof).Overdeep :=
    ⟨fun h => Bool.noConfusion (h.2.2 : true = false), 0, rfl, deepBranch,
      List.mem_singleton_self _, by decide +kernel⟩
  have hexact := (history_exact made_deepProof []).2.2.2
  obtain ⟨-, hoverflow, -⟩ := (hexact .toCell).2 trivial
  obtain ⟨-, -, hread, -⟩ := (hexact (.word 8)).2 (by change 8 < 2 ^ 60; decide)
  exact ⟨made_deepProof, hdeep, hoverflow.mpr ⟨rfl, hdeep⟩, hread 8 rfl⟩

end LoadCall

end BagOfCells
