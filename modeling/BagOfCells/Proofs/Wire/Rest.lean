import BagOfCells.Address.Wire
import BagOfCells.Codec.Either
import BagOfCells.Proofs.Cell.Made
import BagOfCells.Proofs.Outcome

/-!
# What a load leaves

Where a load succeeds, it leaves a rest of the slice, over the same cell. So of a slice with nothing
but made cells in it, it leaves such a slice, and the cells it gives are made.

## Main definitions

* `Slice.Made`: a slice over a made cell, with made cells left
* `Slice.Leaves s s'`: a slice is a rest of another one
* `Slice.Gives load post`: a load leaves a rest, and gives a value of a certain form

## Main results

* `Slice.Gives.bind`: one load after the other
* `Slice.gives_toCell`: the cell made of what is left
-/

namespace BagOfCells.Slice

open Outcome

variable {α β : Type}

/-- A slice over a made cell, with made cells left. -/
structure Made (s : Slice) : Prop where
  cell : s.cell.Made
  refs : ∀ ref ∈ s.refs, ref.Made

theorem made_ofCell {cell : Cell} (h : cell.Made) : Made (ofCell cell) :=
  ⟨h, fun _ => h.refs⟩

/-- A slice is a rest of another one, over the same cell. -/
structure Leaves (s s' : Slice) : Prop where
  cell : s'.cell = s.cell
  bits : s'.bits <:+ s.bits
  refs : s'.refs <:+ s.refs

theorem Leaves.refl (s : Slice) : Leaves s s :=
  ⟨rfl, List.suffix_rfl, List.suffix_rfl⟩

theorem Leaves.trans {s s' s'' : Slice} (h : Leaves s s') (h' : Leaves s' s'') : Leaves s s'' :=
  ⟨h'.cell.trans h.cell, h'.bits.trans h.bits, h'.refs.trans h.refs⟩

theorem Leaves.made {s s' : Slice} (h : Leaves s s') (hs : s.Made) : s'.Made :=
  ⟨h.cell ▸ hs.cell, fun ref hr => hs.refs ref (h.refs.subset hr)⟩

/-- Where a load succeeds on a slice with made cells, it leaves a rest of it and gives a value of a
certain form. -/
def Gives (load : Load α) (post : α → Prop) : Prop :=
  ∀ s a s', s.Made → load s = .ok a s' → Leaves s s' ∧ post a

variable {load : Load α} {next : α → Load β} {post : α → Prop} {post' : β → Prop}

theorem gives_pure {a : α} (h : post a) : Gives (pure a) post := by
  intro s b s' _ hb
  cases hb
  exact ⟨.refl s, h⟩

theorem gives_throw (e : CellError) : Gives (throw e) post :=
  fun _ _ _ _ h => nomatch h

/-- **Two loads**, one after the other. -/
theorem Gives.bind (h : Gives load post) (hn : ∀ a, post a → Gives (next a) post') :
    Gives (load >>= next) post' := by
  intro s b s'' hs hb
  obtain ⟨a, s', ha, hb⟩ := run_bind_eq_ok_iff.mp hb
  obtain ⟨hl, hpost⟩ := h s a s' hs ha
  obtain ⟨hl', hpost'⟩ := hn a hpost s' b s'' (hl.made hs) hb
  exact ⟨hl.trans hl', hpost'⟩

theorem Gives.map {f : α → β} (h : Gives load post) (hf : ∀ a, post a → post' (f a)) :
    Gives (load >>= fun a => pure (f a)) post' :=
  h.bind fun a ha => gives_pure (hf a ha)

theorem gives_ite {condition : Prop} [Decidable condition] {load' : Load α}
    (h : condition → Gives load post) (h' : ¬ condition → Gives load' post) :
    Gives (if condition then load else load') post := by
  split
  · exact h ‹_›
  · exact h' ‹_›

/-- A refusal in front of a load. -/
theorem gives_refuse {condition : Prop} [Decidable condition] {e : CellError}
    {next : Unit → Load β} (h : ¬ condition → Gives (next ()) post') :
    Gives (if condition then throw e >>= next else next ()) post' :=
  gives_ite (fun _ => gives_throw e) h

theorem gives_get : Gives get Made := by
  intro s a s' hs h
  cases h
  exact ⟨.refl s, hs⟩

theorem gives_checkedLength (n : Nat) : Gives (checkedLength n) (· = n) :=
  gives_ite (fun _ => gives_pure rfl) fun _ => gives_throw _

/-! ## Bits -/

theorem gives_ensureBits (n : Nat) : Gives (ensureBits n) fun _ => True :=
  gives_get.bind fun _ _ => gives_ite (fun _ => gives_throw _) fun _ => gives_pure trivial

theorem gives_peekBits (n : Nat) : Gives (peekBits n) fun _ => True :=
  (gives_ensureBits n).bind fun _ _ => gives_get.map fun _ _ => trivial

theorem gives_skipBits (n : Nat) : Gives (skipBits n) fun _ => True := by
  refine (gives_ensureBits n).bind fun _ _ => ?_
  intro s a s' hs h
  cases h
  exact ⟨⟨rfl, List.drop_suffix .., List.suffix_rfl⟩, trivial⟩

theorem gives_loadBits (n : Nat) : Gives (loadBits n) fun _ => True :=
  (gives_peekBits n).bind fun _ _ => (gives_skipBits n).map fun _ _ => trivial

theorem gives_loadBit : Gives loadBit fun _ => True :=
  (gives_loadBits 1).map fun _ _ => trivial

theorem gives_loadBytes (n : Nat) : Gives (loadBytes n) fun _ => True :=
  (gives_checkedLength _).bind fun _ _ => (gives_loadBits _).map fun _ _ => trivial

/-! ## Numbers -/

theorem gives_peekWord (width : Nat) : Gives (peekWord width) fun _ => True := by
  unfold peekWord
  exact gives_refuse fun _ => (gives_peekBits width).map fun _ _ => trivial

theorem gives_loadWord (width : Nat) : Gives (loadWord width) fun _ => True :=
  (gives_peekWord width).bind fun _ _ => (gives_skipBits width).map fun _ _ => trivial

theorem gives_loadSignedWord (width : Nat) : Gives (loadSignedWord width) fun _ => True := by
  unfold loadSignedWord
  exact gives_refuse fun _ => gives_ite (fun _ => gives_pure trivial) fun _ =>
    (gives_loadWord width).map fun _ _ => trivial

theorem gives_loadConstant (value : UInt64) (width : Nat) :
    Gives (loadConstant value width) fun _ => True :=
  (gives_peekWord width).bind fun _ _ => gives_refuse fun _ => gives_skipBits width

theorem gives_loadNat (width : Nat) : Gives (loadNat width) fun _ => True :=
  (gives_loadBits width).map fun _ _ => trivial

theorem gives_loadVarNat (lengthBits : Nat) : Gives (loadVarNat lengthBits) fun _ => True :=
  (gives_loadWord lengthBits).bind fun _ _ =>
    (gives_checkedLength _).bind fun _ _ => gives_loadNat _

theorem gives_loadAddress : Gives loadAddress fun _ => True := by
  refine (gives_peekWord 2).bind fun _ _ => ?_
  refine gives_ite (fun _ => (gives_skipBits 2).map fun _ _ => trivial) fun _ => ?_
  refine gives_ite (fun _ => ?_) fun _ => gives_ite (fun _ => gives_throw _) fun _ => gives_throw _
  refine (gives_ensureBits _).bind fun _ _ => (gives_skipBits 2).bind fun _ _ => ?_
  refine gives_loadBit.bind fun _ _ => gives_refuse fun _ => ?_
  exact (gives_loadSignedWord 8).bind fun _ _ => (gives_loadBytes 32).map fun _ _ => trivial

/-! ## Cells -/

theorem gives_loadRef : Gives loadRef Cell.Made := by
  have hpeek : Gives (peekRef 0) Cell.Made := by
    refine gives_get.bind fun s hs => ?_
    split
    · next h => exact gives_pure (hs.refs _ (List.mem_of_getElem? h))
    · exact gives_throw _
  refine hpeek.bind fun ref href => ?_
  intro s a s' hs h
  cases h
  exact ⟨⟨rfl, List.suffix_rfl, List.drop_suffix ..⟩, href⟩

theorem gives_loadMaybeRef : Gives loadMaybeRef fun ref? => ∀ ref ∈ ref?, ref.Made := by
  refine gives_loadBit.bind fun _ _ => gives_ite (fun _ => ?_) fun _ => gives_pure nofun
  refine gives_loadRef.map fun ref href => ?_
  rintro _ ⟨⟩
  exact href

/-- **The cell made of what is left** is made. -/
theorem gives_toCell : Gives toCell Cell.Made := by
  intro s a s' hs h
  obtain ⟨_, _, ⟨⟩, h⟩ := run_bind_eq_ok_iff.mp h
  obtain ⟨_, _, ⟨⟩, h⟩ := run_bind_eq_ok_iff.mp h
  have hleaves : Leaves s ⟨s.cell, [], []⟩ := ⟨rfl, List.nil_suffix, List.nil_suffix⟩
  split at h
  · cases h
    exact ⟨hleaves, hs.cell⟩
  · cases hm : Cell.make .ordinary s.bits s.refs with
    | error e =>
      rw [hm] at h
      cases h
    | ok cell =>
      rw [hm] at h
      cases h
      refine ⟨hleaves, Cell.made_iff.mpr ⟨Cell.sound_of_make hm, ?_⟩⟩
      rw [Cell.refs_make hm]
      exact hs.refs

theorem endParse_eq (s : Slice) :
    endParse s = if s.isEmpty then .ok () s
      else .error (.malformed (.leftover s.bits.length s.refs.length)) s := by
  change (if ¬ s.isEmpty = true then throw _ else pure () : Load Unit) s = _
  cases s.isEmpty <;> rfl

/-- A cell is parsed if it is ordinary and the load takes all it holds. -/
theorem parse_eq_ok_iff {cell : Cell} {a : α} :
    parse load cell = .ok a ↔
      cell.isExotic = false ∧ ∃ s, load (ofCell cell) = .ok a s ∧ s.isEmpty = true := by
  unfold parse ordinary
  cases cell.isExotic with
  | true => exact ⟨nofun, nofun⟩
  | false =>
    rw [if_neg Bool.false_ne_true, and_iff_right rfl]
    dsimp only
    cases hload : load (ofCell cell) with
    | error e s =>
      rw [run_bind_of_error hload]
      exact ⟨nofun, nofun⟩
    | ok value s =>
      have hend := endParse_eq s
      rw [run_bind_of_ok hload]
      cases hempty : s.isEmpty with
      | true =>
        rw [hempty] at hend
        rw [run_bind_of_ok hend]
        change Except.ok value = Except.ok a ↔ _
        simp [hempty]
      | false =>
        rw [hempty] at hend
        rw [run_bind_of_error hend]
        simp [hempty]

end BagOfCells.Slice
