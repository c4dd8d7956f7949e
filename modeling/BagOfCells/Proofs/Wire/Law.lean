import BagOfCells.Builder.Basic
import BagOfCells.Proofs.Cell.Made
import BagOfCells.Proofs.Number
import BagOfCells.Slice.Integer

/-!
# What is stored is what is loaded

A load *reads* a value off some bits and references if it takes just these from the front of a
slice, whatever is left behind them; some loads take the rest of a slice, and read only where
nothing is left. A store *appends* bits and references of a certain form to any builder in which it
succeeds. Both are kept when stores and loads follow one another, so a value *reads back* if its
store appends what its load reads. The cell that is built has the slices to read it from.

## Main definitions

* `Slice.Valid`: what is left of a slice is a rest of its cell
* `Slice.Reads load rest bits refs a`, `Slice.Peeks peek bits a`: a load and the value it gives
* `Builder.Appends store form`, `Builder.Writes store bits`: a store and what it appends
* `Builder.ReadsBack store load rest a`: both together

## Main results

* `Slice.Reads.bind`, `Builder.ReadsBack.bind`: one after the other
* `Slice.reads_toCell`: a cell put inline reads back from the rest of a slice
* `Builder.ReadsBack.parse`: what a cell was built from is parsed
* `Builder.ReadsBack.load_eq`: what was stored is loaded from where it was stored
-/

namespace BagOfCells

open Outcome

/-! ## Loads -/

namespace Slice

variable {α β : Type}

/-- The bits and references left of a slice over a sound cell are a rest of those of the cell. -/
structure Valid (s : Slice) : Prop where
  sound : s.cell.Sound
  bits : s.bits <:+ s.cell.bits
  refs : s.refs <:+ s.cell.refs

theorem Valid.drop {cell : Cell} {bits later : Bits} {refs laterRefs : List Cell}
    (h : Valid ⟨cell, bits ++ later, refs ++ laterRefs⟩) : Valid ⟨cell, later, laterRefs⟩ :=
  ⟨h.sound, (List.suffix_append ..).trans h.bits, (List.suffix_append ..).trans h.refs⟩

theorem valid_ofCell {cell : Cell} (h : cell.Sound) : Valid (ofCell cell) :=
  ⟨h, List.suffix_rfl, List.suffix_rfl⟩

/-- A load takes some bits and references from the front of a slice and gives a value, whatever is
left behind them; nothing may be left if it takes the rest. -/
def Reads (load : Load α) (rest : Bool) (bits : Bits) (refs : List Cell) (a : α) : Prop :=
  ∀ cell later laterRefs, Valid ⟨cell, bits ++ later, refs ++ laterRefs⟩ →
    (rest = true → later = [] ∧ laterRefs = []) →
      load ⟨cell, bits ++ later, refs ++ laterRefs⟩ = .ok a ⟨cell, later, laterRefs⟩

/-- A load finds some bits at the front of a slice and gives a value, with the slice left as it
is. -/
def Peeks (peek : Load α) (bits : Bits) (a : α) : Prop :=
  ∀ cell later refs, peek ⟨cell, bits ++ later, refs⟩ = .ok a ⟨cell, bits ++ later, refs⟩

variable {load : Load α} {next : α → Load β} {rest : Bool} {bits bits' : Bits}
  {refs refs' : List Cell} {a : α} {b : β}

theorem Reads.pure (a : α) : Reads (pure a) rest [] [] a :=
  fun _ _ _ _ _ => rfl

theorem Reads.bind (hl : Reads load false bits refs a) (hn : Reads (next a) rest bits' refs' b) :
    Reads (load >>= next) rest (bits ++ bits') (refs ++ refs') b := by
  intro cell later laterRefs hv hr
  rw [List.append_assoc, List.append_assoc] at hv ⊢
  rw [run_bind_of_ok (hl cell _ _ hv nofun)]
  exact hn cell later laterRefs hv.drop hr

/-- A load followed by one that takes nothing. -/
theorem Reads.bind_nothing (hl : Reads load rest bits refs a) (hn : Reads (next a) rest [] [] b) :
    Reads (load >>= next) rest bits refs b := by
  intro cell later laterRefs hv hr
  rw [run_bind_of_ok (hl cell later laterRefs hv hr)]
  exact hn cell later laterRefs hv.drop hr

theorem Reads.map (f : α → β) (h : Reads load rest bits refs a) :
    Reads (load >>= fun a => Pure.pure (f a)) rest bits refs (f a) :=
  h.bind_nothing (.pure _)

/-- A load that takes nothing, followed by another one. -/
theorem Reads.nothing_bind (hl : Reads load false [] [] a) (hn : Reads (next a) rest bits refs b) :
    Reads (load >>= next) rest bits refs b :=
  hl.bind hn

/-- A load that looks ahead, followed by one that begins with what it has seen. -/
theorem Peeks.bind (hp : Peeks load bits a) (hn : Reads (next a) rest (bits ++ bits') refs b) :
    Reads (load >>= next) rest (bits ++ bits') refs b := by
  intro cell later laterRefs hv hr
  have hseen := hp cell (bits' ++ later) (refs ++ laterRefs)
  rw [← List.append_assoc] at hseen
  rw [run_bind_of_ok hseen]
  exact hn cell later laterRefs hv hr

theorem Peeks.bind_self (hp : Peeks load bits a) (hn : Reads (next a) rest bits refs b) :
    Reads (load >>= next) rest bits refs b := by
  rw [← List.append_nil bits] at hn ⊢
  exact hp.bind hn

theorem reads_ofExcept {x : Except CellError α} (h : x = .ok a) :
    Reads (ofExcept x) rest [] [] a :=
  h ▸ Reads.pure a

/-! ### Bits -/

theorem peeks_ensureBits {n : Nat} (h : n ≤ bits.length) : Peeks (ensureBits n) bits () := by
  intro cell later refs
  have hn : ¬ n > (bits ++ later).length := by
    rw [List.length_append]
    omega
  change (if n > (bits ++ later).length then throw _ else Pure.pure () : Load Unit) _ = _
  rw [if_neg hn]
  rfl

/-- The next bits, as many as asked for. -/
theorem peeks_bits {n : Nat} (h : bits.length = n) : Peeks (peekBits n) bits bits := by
  intro cell later refs
  rw [peekBits, run_bind_of_ok (peeks_ensureBits h.ge cell later refs)]
  change EStateM.Result.ok ((bits ++ later).take n) _ = _
  rw [← h, List.take_left]

theorem reads_skipBits {n : Nat} (h : bits.length = n) : Reads (skipBits n) rest bits [] () := by
  intro cell later laterRefs _ _
  rw [skipBits, run_bind_of_ok (peeks_ensureBits h.ge cell later _)]
  change EStateM.Result.ok () (⟨cell, (bits ++ later).drop n, _⟩ : Slice) = _
  rw [← h, List.drop_left]
  rfl

theorem Peeks.skip {n : Nat} (hp : Peeks load bits a) (h : bits.length = n) :
    Reads (load >>= fun a => skipBits n >>= fun _ => Pure.pure a) rest bits [] a :=
  hp.bind_self ((reads_skipBits h).bind_nothing (.pure a))

/-- **Some bits** are read. -/
theorem reads_bits {n : Nat} (h : bits.length = n) : Reads (loadBits n) rest bits [] bits :=
  (peeks_bits h).skip h

theorem reads_bit (bit : Bool) : Reads loadBit rest [bit] [] bit :=
  have h : Reads (loadBits 1) rest [bit] [] [bit] := reads_bits rfl
  h.map fun bits : Bits => bits.headD false

theorem reads_nat {width : Nat} (h : bits.length = width) :
    Reads (loadNat width) rest bits [] (Bits.toNat bits) :=
  (reads_bits h).map Bits.toNat

theorem peeks_word {width : Nat} (hw : width ≤ 64) (h : bits.length = width) :
    Peeks (peekWord width) bits (Bits.toWord bits) := by
  intro cell later refs
  rw [peekWord, if_neg (Nat.not_lt.mpr hw)]
  change (peekBits width >>= _) _ = _
  rw [run_bind_of_ok (peeks_bits h cell later refs)]
  rfl

theorem reads_word {width : Nat} (hw : width ≤ 64) (h : bits.length = width) :
    Reads (loadWord width) rest bits [] (Bits.toWord bits) :=
  (peeks_word hw h).skip h

theorem reads_constant {width : Nat} (hw : width ≤ 64) (h : bits.length = width) :
    Reads (loadConstant (Bits.toWord bits) width) rest bits [] () := by
  refine (peeks_word hw h).bind_self ?_
  rw [if_neg (by simp)]
  exact reads_skipBits h

theorem reads_bytes {data : Bytes} {n : Nat} (h : data.length = n) (hn : 8 * n < 2 ^ 64) :
    Reads (loadBytes n) rest (Bits.ofBytes data) [] data := by
  have hlen : (Bits.ofBytes data).length = 8 * n := by rw [Bits.length_ofBytes, h]
  have hword : Reads (checkedLength (8 * n)) false [] [] (8 * n) := by
    rw [checkedLength, if_pos (by rwa [Bits.bound_eq])]
    exact .pure _
  have hread : Reads (loadBits (8 * n) >>= fun bits => Pure.pure (Bits.pack bits)) rest _ [] _ :=
    (reads_bits hlen).map Bits.pack
  rw [Bits.pack_ofBytes] at hread
  exact hword.nothing_bind hread

/-! ### References -/

theorem reads_ref (cell : Cell) : Reads loadRef rest [] [cell] cell :=
  fun _ _ _ _ _ => rfl

theorem reads_maybeRef_some (cell : Cell) : Reads loadMaybeRef rest [true] [cell] (some cell) :=
  (reads_bit true).bind ((reads_ref cell).map some)

theorem reads_maybeRef_none : Reads loadMaybeRef rest [false] [] none :=
  (reads_bit false).bind_nothing (.pure none)

/-! ### The rest of a slice -/

/-- **A cell put inline** is read from the rest of a slice: a cell made of the same parts, unless
nothing has been read yet and the cell is there already. -/
theorem reads_toCell {value : Cell} (hs : value.Sound) (hk : value.kind = .ordinary) :
    Reads toCell true value.bits value.refs value := by
  intro cell later laterRefs hv hr
  obtain ⟨rfl, rfl⟩ := hr rfl
  rw [List.append_nil, List.append_nil] at hv ⊢
  have hmake : Cell.make .ordinary value.bits value.refs = .ok value := hk ▸ Cell.make_of_sound hs
  change (if bitPosition ⟨cell, value.bits, value.refs⟩ = 0 ∧
    refPosition ⟨cell, value.bits, value.refs⟩ = 0 ∧ cell.isExotic = false then
      Pure.pure cell else ofExcept (Cell.make .ordinary value.bits value.refs) : Load Cell)
        ⟨cell, [], []⟩ = _
  split
  · next h =>
    obtain ⟨hb, hr, he⟩ := h
    have hbits : value.bits = cell.bits := hv.bits.eq_of_length_le (Nat.sub_eq_zero_iff_le.mp hb)
    have hrefs : value.refs = cell.refs := hv.refs.eq_of_length_le (Nat.sub_eq_zero_iff_le.mp hr)
    have hkind : cell.kind = .ordinary := by
      unfold Cell.isExotic CellKind.isExotic at he
      simpa using he
    rw [hs.eq hv.sound (hk.trans hkind.symm) hbits hrefs]
    rfl
  · rw [hmake]
    rfl

/-- A load that reads all a cell holds leaves nothing of it. -/
theorem Reads.run_ofCell {cell : Cell} (hs : cell.Sound)
    (h : Reads load rest cell.bits cell.refs a) : load (ofCell cell) = .ok a ⟨cell, [], []⟩ := by
  have hload := h cell [] []
  rw [List.append_nil, List.append_nil] at hload
  exact hload (valid_ofCell hs) fun _ => ⟨rfl, rfl⟩

theorem ordinary_eq_ok {cell : Cell} (hk : cell.kind = .ordinary) :
    ordinary cell = .ok (ofCell cell) := by
  rw [ordinary, Cell.isExotic, hk]
  rfl

/-- **A whole cell** is parsed by a load that reads all it holds. -/
theorem Reads.parse {cell : Cell} (hs : cell.Sound) (hk : cell.kind = .ordinary)
    (h : Reads load rest cell.bits cell.refs a) : parse load cell = .ok a := by
  have hwhole : (do let value ← load; endParse; return value : Load α) (ofCell cell) =
      .ok a ⟨cell, [], []⟩ := by
    rw [run_bind_of_ok (h.run_ofCell hs)]
    rfl
  rw [Slice.parse, ordinary_eq_ok hk]
  simp only [hwhole]

end Slice

/-! ## Stores -/

namespace Builder

variable {α β : Type}

/-- Where a store succeeds, it appends bits and references of a certain form. -/
def Appends (store : Store) (form : Bits → List Cell → Prop) : Prop :=
  ∀ b b', store b = .ok () b' →
    ∃ bits refs, b' = ⟨b.bits ++ bits, b.refs ++ refs⟩ ∧ form bits refs

/-- A step that leaves the builder alone and gives something of a certain form, or fails. -/
def Checks (check : EStateM CellError Builder α) (post : α → Prop) : Prop :=
  ∀ b a b', check b = .ok a b' → b' = b ∧ post a

variable {first : Store} {next : Unit → Store} {form form' : Bits → List Cell → Prop}

theorem appends_append {bits : Bits} {refs : List Cell} (h : form bits refs) :
    Appends (append bits refs) form := by
  intro b b' hb
  obtain ⟨-, rfl⟩ := append_eq_ok_iff.mp hb
  exact ⟨bits, refs, rfl, h⟩

theorem appends_pure (h : form [] []) : Appends (pure ()) form := by
  intro b b' hb
  cases hb
  exact ⟨[], [], by rw [List.append_nil, List.append_nil], h⟩

theorem appends_throw (e : CellError) : Appends (throw e) form :=
  fun _ _ hb => nomatch hb

theorem Appends.mono {store : Store} (h : Appends store form)
    (hf : ∀ bits refs, form bits refs → form' bits refs) : Appends store form' := by
  intro b b' hb
  obtain ⟨bits, refs, rfl, h⟩ := h b b' hb
  exact ⟨bits, refs, rfl, hf bits refs h⟩

/-- Two stores, one after the other. -/
theorem Appends.bind {first : Store} {next : Unit → Store}
    {form₁ form₂ form : Bits → List Cell → Prop} (h₁ : Appends first form₁)
    (h₂ : Appends (next ()) form₂)
    (h : ∀ bits refs bits' refs', form₁ bits refs → form₂ bits' refs' →
      form (bits ++ bits') (refs ++ refs')) : Appends (first >>= next) form := by
  intro b b'' hb
  obtain ⟨⟨⟩, b', hfirst, hnext⟩ := run_bind_eq_ok_iff.mp hb
  obtain ⟨bits, refs, rfl, hform₁⟩ := h₁ b b' hfirst
  obtain ⟨bits', refs', rfl, hform₂⟩ := h₂ _ _ hnext
  refine ⟨bits ++ bits', refs ++ refs', ?_, h _ _ _ _ hform₁ hform₂⟩
  rw [List.append_assoc, List.append_assoc]

theorem Checks.bind {check : EStateM CellError Builder α} {post : α → Prop} {next : α → Store}
    (hc : Checks check post) (h : ∀ a, post a → Appends (next a) form) :
    Appends (check >>= next) form := by
  intro b b'' hb
  obtain ⟨a, b', hcheck, hnext⟩ := run_bind_eq_ok_iff.mp hb
  obtain ⟨rfl, hpost⟩ := hc b a b' hcheck
  exact h a hpost _ _ hnext

theorem checks_ensureFits (bits refs : Nat) : Checks (ensureFits bits refs) fun _ => True := by
  intro b a b' hb
  unfold ensureFits at hb
  split at hb
  · cases hb
  · cases hb
    exact ⟨rfl, trivial⟩

theorem checks_get : Checks get fun _ => True := by
  intro b a b' hb
  cases hb
  exact ⟨rfl, trivial⟩

theorem checks_ofExcept (x : Except CellError α) : Checks (ofExcept x) fun a => x = .ok a := by
  intro b a b' hb
  cases x with
  | ok a' =>
    cases hb
    exact ⟨rfl, rfl⟩
  | error e => cases hb

theorem checks_checkedLength (n : Nat) :
    Checks (checkedLength n) fun a => a = n ∧ n < Bits.bound 64 := by
  intro b a b' hb
  unfold checkedLength at hb
  split at hb
  · next h =>
    cases hb
    exact ⟨rfl, rfl, h⟩
  · cases hb

theorem appends_throw_bind (e : CellError) : Appends (throw e >>= next) form :=
  fun _ _ hb => nomatch hb

/-- A refusal in front of a store. -/
theorem appends_refuse {condition : Prop} [Decidable condition] {e : CellError}
    (h : ¬ condition → Appends (next ()) form) :
    Appends (if condition then throw e >>= next else next ()) form := by
  split
  · exact appends_throw_bind e
  · next hc => exact h hc

theorem Appends.atomically {store : Store} (h : Appends store form) :
    Appends (atomically store) form := by
  intro b b' hb
  unfold Builder.atomically at hb
  split at hb
  · next hs =>
    cases hb
    exact h b _ hs
  · cases hb

/-- A store appends some bits and no references. -/
def Writes (store : Store) (bits : Bits) : Prop :=
  Appends store fun bits' refs => bits' = bits ∧ refs = []

theorem writes_append (bits : Bits) : Writes (append bits []) bits :=
  appends_append ⟨rfl, rfl⟩

theorem Writes.bind {bits bits' : Bits} (h₁ : Writes first bits) (h₂ : Writes (next ()) bits') :
    Writes (first >>= next) (bits ++ bits') := by
  refine Appends.bind h₁ h₂ ?_
  rintro _ _ _ _ ⟨rfl, rfl⟩ ⟨rfl, rfl⟩
  exact ⟨rfl, rfl⟩

theorem run_eq_ok_iff {store : Store} {b b' : Builder} :
    run store b = .ok b' ↔ store b = .ok () b' := by
  unfold run
  split
  · next h => rw [h, Except.ok.injEq, EStateM.Result.ok.injEq, and_iff_right rfl]
  · next h => rw [h]; simp

/-- **What a builder is given** by a store is in the cell built from it. -/
theorem Appends.build {store : Store} (h : Appends store form) {cell : Cell}
    (hb : build store = .ok cell) :
    form cell.bits cell.refs ∧ cell.kind = .ordinary ∧ cell.Sound := by
  obtain ⟨b, hrun, hmake⟩ := bind_eq_ok_iff.mp hb
  obtain ⟨bits, refs, rfl, hform⟩ := h _ _ (run_eq_ok_iff.mp hrun)
  rw [Cell.bits_make hmake, Cell.refs_make hmake]
  exact ⟨hform, Cell.kind_make hmake, Cell.sound_of_make hmake⟩

/-! ## Both -/

/-- A store appends what a load reads as a value. -/
def ReadsBack (store : Store) (load : Load α) (rest : Bool) (a : α) : Prop :=
  Appends store fun bits refs => Slice.Reads load rest bits refs a

variable {store : Store} {load : Load α} {loadNext : α → Load β} {rest : Bool} {a : α} {b : β}

/-- **Two stores read back** by two loads, one after the other. -/
theorem ReadsBack.bind (hf : ReadsBack first load false a)
    (hn : ReadsBack (next ()) (loadNext a) rest b) :
    ReadsBack (first >>= next) (load >>= loadNext) rest b :=
  Appends.bind hf hn fun _ _ _ _ => Slice.Reads.bind

theorem Writes.readsBack {bits : Bits} (h : Writes store bits)
    (hl : Slice.Reads load rest bits [] a) : ReadsBack store load rest a := by
  refine h.mono ?_
  rintro _ _ ⟨rfl, rfl⟩
  exact hl

/-- A store followed by nothing, and its load by one that takes nothing. -/
theorem ReadsBack.bind_nothing (hf : ReadsBack first load rest a)
    (hn : Slice.Reads (loadNext a) rest [] [] b) :
    ReadsBack (first >>= fun _ => pure ()) (load >>= loadNext) rest b := by
  rw [bind_pure_unit]
  exact hf.mono fun _ _ h => h.bind_nothing hn

theorem ReadsBack.map (f : α → β) (h : ReadsBack store load rest a) :
    ReadsBack store (load >>= fun a => pure (f a)) rest (f a) :=
  h.mono fun _ _ => Slice.Reads.map f

/-- **What a cell was built from** is parsed. -/
theorem ReadsBack.parse (h : ReadsBack store load rest a) {cell : Cell}
    (hb : build store = .ok cell) : Slice.parse load cell = .ok a := by
  obtain ⟨hform, hk, hs⟩ := Appends.build h hb
  exact hform.parse hs hk

/-- **What was stored is loaded** from where it was stored, whatever was stored before and, unless
the load takes the rest, whatever was stored behind it. -/
theorem ReadsBack.load_eq (h : ReadsBack store load rest a) {b b' b'' : Builder}
    (hstore : store b = .ok () b') (hbits : b'.bits <+: b''.bits) (hrefs : b'.refs <+: b''.refs)
    (hrest : rest = true → b'' = b') {kind : CellKind} {cell : Cell}
    (hcell : b''.endExoticCell kind = .ok cell) :
    load ⟨cell, cell.bits.drop b.bits.length, cell.refs.drop b.refs.length⟩ =
      .ok a ⟨cell, cell.bits.drop b'.bits.length, cell.refs.drop b'.refs.length⟩ := by
  obtain ⟨bits, refs, rfl, hreads⟩ := h b b' hstore
  obtain ⟨later, hlater⟩ := hbits
  obtain ⟨laterRefs, hlaterRefs⟩ := hrefs
  rw [List.append_assoc] at hlater hlaterRefs
  have hcb : cell.bits = b.bits ++ (bits ++ later) := (Cell.bits_make hcell).trans hlater.symm
  have hcr : cell.refs = b.refs ++ (refs ++ laterRefs) :=
    (Cell.refs_make hcell).trans hlaterRefs.symm
  have hv : Slice.Valid ⟨cell, bits ++ later, refs ++ laterRefs⟩ :=
    ⟨Cell.sound_of_make hcell, hcb ▸ List.suffix_append .., hcr ▸ List.suffix_append ..⟩
  have hload := hreads cell later laterRefs hv fun hr => by
    rw [hrest hr, ← List.append_assoc] at hlater hlaterRefs
    exact ⟨List.append_right_eq_self.mp hlater, List.append_right_eq_self.mp hlaterRefs⟩
  rw [List.length_append, List.length_append, hcb, hcr, List.drop_left, List.drop_left,
    ← List.append_assoc, ← List.append_assoc, ← List.length_append, ← List.length_append,
    List.drop_left, List.drop_left]
  exact hload

end Builder

end BagOfCells
