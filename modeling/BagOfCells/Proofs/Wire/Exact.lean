import BagOfCells.Builder.Integer
import BagOfCells.Proofs.Number
import BagOfCells.Proofs.Outcome
import BagOfCells.Slice.Integer

/-!
# What is accepted and what is refused

A load of bits accepts a form if it succeeds exactly on the slices that begin with bits of the form,
gives the value that the bits stand for, and takes just these bits; on all other slices it is
refused. A store puts down some bits and references exactly where a cell still holds them, and is
refused otherwise. Of loads or stores that follow one another the second begins where the first has
ended, so both laws are kept.

## Main definitions

* `Slice.Accepts load form`: a load, and the bits and the value it accepts
* `Builder.Stores store bits refs`: a store, and what it puts down where there is room

## Main results

* `Slice.Accepts.bind`, `Builder.Stores.bind`: one after the other
* `Slice.accepts_bits`, `Slice.accepts_bit`, `Slice.accepts_word`: bits and words
* `Builder.stores_append`: some bits and references
-/

namespace BagOfCells.Slice

open Outcome

variable {α β : Type}

/-- A load succeeds exactly on the slices that begin with bits of a certain form for a value, gives
the value and takes the bits; elsewhere it is refused. -/
structure Accepts (load : Load α) (form : Bits → α → Prop) : Prop where
  ok_iff : ∀ s a s',
    load s = .ok a s' ↔ ∃ bits, s = ⟨s'.cell, bits ++ s'.bits, s'.refs⟩ ∧ form bits a
  refuses : ∀ s e s', load s = .error e s' → e.isRefusal = true

variable {load : Load α} {next : α → Load β} {form : Bits → α → Prop}

theorem Accepts.congr (h : Accepts load form) {form' : Bits → α → Prop}
    (hf : ∀ bits a, form bits a ↔ form' bits a) : Accepts load form' := by
  refine ⟨fun s a s' => ?_, h.refuses⟩
  simp only [h.ok_iff, hf]

/-- What a load accepts of some bits is told by them. -/
theorem Accepts.unique (h : Accepts load form) {front front' rest rest' : Bits} {a a' : α}
    (ha : form front a) (ha' : form front' a') (heq : front ++ rest = front' ++ rest') :
    front = front' ∧ a = a' := by
  have hload := (h.ok_iff ⟨.empty, front ++ rest, []⟩ a ⟨.empty, rest, []⟩).mpr ⟨front, rfl, ha⟩
  have hload' := (h.ok_iff ⟨.empty, front' ++ rest', []⟩ a' ⟨.empty, rest', []⟩).mpr
    ⟨front', rfl, ha'⟩
  rw [heq, hload'] at hload
  cases hload
  exact ⟨List.append_cancel_right heq, rfl⟩

theorem accepts_pure (a : α) : Accepts (pure a) fun bits b => bits = [] ∧ b = a := by
  refine ⟨fun s b s' => ⟨?_, ?_⟩, nofun⟩
  · rintro ⟨⟩
    exact ⟨[], rfl, rfl, rfl⟩
  · rintro ⟨_, rfl, rfl, rfl⟩
    rfl

theorem accepts_throw {e : CellError} (h : e.isRefusal = true) :
    Accepts (throw e : Load α) fun _ _ => False := by
  refine ⟨fun s a s' => ⟨nofun, ?_⟩, ?_⟩
  · rintro ⟨_, _, ⟨⟩⟩
  · rintro s _ s' ⟨⟩
    exact h

/-- **Two loads**, one after the other. -/
theorem Accepts.bind (h : Accepts load form) {form' : α → Bits → β → Prop}
    (hn : ∀ a, Accepts (next a) (form' a)) :
    Accepts (load >>= next) fun bits b =>
      ∃ front a back, bits = front ++ back ∧ form front a ∧ form' a back b := by
  refine ⟨fun s b s'' => ⟨?_, ?_⟩, ?_⟩
  · intro hb
    obtain ⟨a, s', ha, hnext⟩ := run_bind_eq_ok_iff.mp hb
    obtain ⟨back, rfl, hback⟩ := ((hn a).ok_iff _ _ _).mp hnext
    obtain ⟨front, rfl, hfront⟩ := (h.ok_iff _ _ _).mp ha
    exact ⟨front ++ back, by rw [List.append_assoc], front, a, back, rfl, hfront, hback⟩
  · rintro ⟨_, rfl, front, a, back, rfl, hfront, hback⟩
    rw [run_bind_eq_ok_iff]
    refine ⟨a, ⟨s''.cell, back ++ s''.bits, s''.refs⟩, ?_, ?_⟩
    · exact (h.ok_iff _ _ _).mpr ⟨front, by rw [List.append_assoc], hfront⟩
    · exact ((hn a).ok_iff _ _ _).mpr ⟨back, rfl, hback⟩
  · intro s e s'' he
    cases ha : load s with
    | error e' s' =>
      rw [run_bind_of_error ha] at he
      cases he
      exact h.refuses _ _ _ ha
    | ok a s' =>
      rw [run_bind_of_ok ha] at he
      exact (hn a).refuses _ _ _ he

theorem Accepts.map (h : Accepts load form) (f : α → β) :
    Accepts (load >>= fun a => pure (f a)) fun bits b => ∃ a, form bits a ∧ b = f a := by
  refine (h.bind fun a => accepts_pure (f a)).congr fun bits b => ⟨?_, ?_⟩
  · rintro ⟨front, a, _, rfl, hfront, rfl, rfl⟩
    exact ⟨a, by rwa [List.append_nil], rfl⟩
  · rintro ⟨a, ha, rfl⟩
    exact ⟨bits, a, [], (List.append_nil bits).symm, ha, rfl, rfl⟩

/-! ## Bits -/

theorem ensureBits_eq (n : Nat) (s : Slice) :
    ensureBits n s =
      if n ≤ s.bits.length then .ok () s else .error (.underflow n s.bits.length) s := by
  change (if n > s.bits.length then throw _ else pure () : Load Unit) s = _
  by_cases h : n ≤ s.bits.length
  · rw [if_pos h, if_neg (not_lt.mpr h)]
    rfl
  · rw [if_neg h, if_pos (not_le.mp h)]
    rfl

theorem loadBits_eq (n : Nat) (s : Slice) :
    loadBits n s =
      if n ≤ s.bits.length then .ok (s.bits.take n) { s with bits := s.bits.drop n }
      else .error (.underflow n s.bits.length) s := by
  have hensure := ensureBits_eq n s
  unfold loadBits peekBits skipBits
  split
  · next h =>
    rw [if_pos h] at hensure
    have hpeek : (do ensureBits n; return (← get).bits.take n : Load Bits) s =
        .ok (s.bits.take n) s := by
      rw [run_bind_of_ok hensure]
      rfl
    rw [run_bind_of_ok hpeek, bind_assoc, run_bind_of_ok hensure]
    rfl
  · next h =>
    rw [if_neg h] at hensure
    exact run_bind_of_error (run_bind_of_error hensure)

theorem accepts_bits (n : Nat) :
    Accepts (loadBits n) fun bits a => bits.length = n ∧ a = bits := by
  refine ⟨fun s a s' => ?_, fun s e s' he => ?_⟩
  · rw [loadBits_eq]
    constructor
    · intro h
      split at h
      · next hn =>
        cases h
        refine ⟨s.bits.take n, ?_, List.length_take_of_le hn, rfl⟩
        rw [List.take_append_drop]
      · cases h
    · rintro ⟨bits, rfl, rfl, rfl⟩
      have hle : a.length ≤ (a ++ s'.bits).length := by
        rw [List.length_append]
        exact Nat.le_add_right ..
      rw [if_pos hle, List.take_left, List.drop_left]
  · rw [loadBits_eq] at he
    split at he <;> cases he
    rfl

theorem accepts_bit : Accepts loadBit fun bits bit => bits = [bit] := by
  refine ((accepts_bits 1).map _).congr fun bits bit => ⟨?_, ?_⟩
  · rintro ⟨_, ⟨hl, rfl⟩, rfl⟩
    obtain ⟨bit, rfl⟩ := List.length_eq_one_iff.mp hl
    rfl
  · rintro rfl
    exact ⟨_, ⟨rfl, rfl⟩, rfl⟩

/-- A machine word is loaded as the bits it stands for. -/
theorem loadWord_eq {width : Nat} (h : width ≤ 64) :
    loadWord width = loadBits width >>= fun bits => pure (Bits.toWord bits) := by
  unfold loadWord loadBits peekWord
  rw [if_neg (not_lt.mpr h)]
  simp

theorem accepts_word {width : Nat} (h : width ≤ 64) :
    Accepts (loadWord width) fun bits word => bits.length = width ∧ word = Bits.toWord bits := by
  rw [loadWord_eq h]
  refine ((accepts_bits width).map _).congr fun bits word => ⟨?_, ?_⟩
  · rintro ⟨_, ⟨hl, rfl⟩, rfl⟩
    exact ⟨hl, rfl⟩
  · rintro ⟨hl, rfl⟩
    exact ⟨bits, ⟨hl, rfl⟩, rfl⟩

end BagOfCells.Slice

namespace BagOfCells.Builder

open Outcome

/-- A builder that is filled no further than a cell. -/
def InLimits (b : Builder) : Prop :=
  b.bits.length ≤ Cell.maxBits ∧ b.refs.length ≤ Cell.maxRefs

/-- What a builder holds after some bits and references have been put behind what it holds. -/
def behind (b : Builder) (bits : Bits) (refs : List Cell) : Builder :=
  ⟨b.bits ++ bits, b.refs ++ refs⟩

@[simp] theorem behind_nil (b : Builder) : b.behind [] [] = b := by
  rw [behind, List.append_nil, List.append_nil]

theorem behind_append (b : Builder) (bits bits' : Bits) (refs refs' : List Cell) :
    b.behind (bits ++ bits') (refs ++ refs') = (b.behind bits refs).behind bits' refs' := by
  simp only [behind, List.append_assoc]

/-- A store puts some bits and references behind what a builder holds, where a cell holds all of it;
otherwise it is refused. -/
def Stores (store : Store) (bits : Bits) (refs : List Cell) : Prop :=
  ∀ b : Builder, b.InLimits →
    (b.behind bits refs).InLimits ∧ store b = .ok () (b.behind bits refs) ∨
      ¬ (b.behind bits refs).InLimits ∧ ∃ e b', store b = .error e b' ∧ e.isRefusal = true

theorem stores_pure : Stores (pure ()) [] [] := by
  intro b hb
  rw [behind_nil]
  exact .inl ⟨hb, rfl⟩

theorem canFit_iff {b : Builder} {bits refs : Nat} :
    b.canFit bits refs = true ↔
      bits ≤ Cell.maxBits - b.bits.length ∧ refs ≤ Cell.maxRefs - b.refs.length := by
  rw [canFit, Bool.and_eq_true, decide_eq_true_iff, decide_eq_true_iff, availableBits,
    availableRefs]

/-- What fits a builder keeps it within limits. -/
theorem InLimits.canFit_iff {b : Builder} (hb : b.InLimits) {bits : Bits} {refs : List Cell} :
    b.canFit bits.length refs.length = true ↔ (b.behind bits refs).InLimits := by
  obtain ⟨hbits, hrefs⟩ := hb
  rw [Builder.canFit_iff, InLimits, behind, List.length_append, List.length_append]
  omega

theorem stores_append (bits : Bits) (refs : List Cell) : Stores (append bits refs) bits refs := by
  intro b hb
  have hroom : b.refusal? bits.length refs.length = none ↔ (b.behind bits refs).InLimits :=
    refusal?_eq_none_iff.trans hb.canFit_iff
  unfold append
  cases hr : b.refusal? bits.length refs.length with
  | none => exact .inl ⟨hroom.mp hr, rfl⟩
  | some e =>
    refine .inr ⟨fun h => ?_, e, b, rfl, ?_⟩
    · rw [hroom.mpr h] at hr
      cases hr
    · unfold refusal? at hr
      split at hr
      · cases hr
        rfl
      · split at hr <;> cases hr
        rfl

/-- A store that looks for room does so again where it was looked for. -/
theorem ensureFits_append (bits : Bits) (refs : List Cell) :
    (do ensureFits bits.length refs.length; append bits refs) = append bits refs := by
  funext b
  cases h : b.refusal? bits.length refs.length with
  | none =>
    have hensure : ensureFits bits.length refs.length b = .ok () b := by simp only [ensureFits, h]
    rw [run_bind_of_ok hensure]
  | some e =>
    have hensure : ensureFits bits.length refs.length b = .error e b := by
      simp only [ensureFits, h]
    rw [run_bind_of_error hensure]
    simp only [append, h]

/-- A number that fits its width. -/
theorem storeNat_eq {value width : Nat} (h : Bits.size value ≤ width) :
    storeNat value width = append (Bits.ofNat width value) [] := by
  have happend := ensureFits_append (Bits.ofNat width value) []
  rw [Bits.length_ofNat] at happend
  rw [← happend, storeNat, if_neg (Nat.not_lt.mpr h)]
  rfl

/-- **Two stores**, one after the other. -/
theorem Stores.bind {first : Store} {next : Unit → Store} {bits bits' : Bits}
    {refs refs' : List Cell} (h : Stores first bits refs) (hn : Stores (next ()) bits' refs') :
    Stores (first >>= next) (bits ++ bits') (refs ++ refs') := by
  intro b hb
  rw [behind_append]
  rcases h b hb with ⟨hfit, hstore⟩ | ⟨hfull, e, b', hstore, he⟩
  · rw [run_bind_of_ok hstore]
    exact hn _ hfit
  · refine .inr ⟨fun hlimits => hfull ?_, e, b', run_bind_of_error hstore, he⟩
    -- what does not fit alone does not fit with more behind it
    simp only [InLimits, behind, List.length_append] at hlimits ⊢
    omega

/-- A store from the empty builder on. -/
theorem Stores.run_empty {store : Store} {bits : Bits} {refs : List Cell}
    (h : Stores store bits refs) :
    (bits.length ≤ Cell.maxBits ∧ refs.length ≤ Cell.maxRefs ∧
        run store empty = .ok ⟨bits, refs⟩) ∨
      ¬ (bits.length ≤ Cell.maxBits ∧ refs.length ≤ Cell.maxRefs) ∧
        ∃ e, run store empty = .error e ∧ e.isRefusal = true := by
  unfold run
  rcases h empty ⟨Nat.zero_le _, Nat.zero_le _⟩ with ⟨hfit, hstore⟩ | ⟨hfull, e, b', hstore, he⟩
  · rw [hstore]
    exact .inl ⟨hfit.1, hfit.2, rfl⟩
  · rw [hstore]
    exact .inr ⟨hfull, e, rfl, he⟩

end BagOfCells.Builder
