import BagOfCells.Bag.Header
import BagOfCells.Proofs.Bytes
import BagOfCells.Proofs.Outcome

/-!
# Readers

Three things are said of a reader. It *reads* a value off some bytes if it takes just these bytes
from the front of its input, whatever follows them. It *fails* on some bytes if it has an error on
every input they begin. It is *guarded* if it keeps within the bytes there are, only moves forward,
and either gives a value of a certain form or refuses. All are kept when readers follow one another.

## Main definitions

* `Bag.Reads read bytes value`, `Bag.Fails read bytes e`: the first two
* `Bag.Guarded size low read post`: the third, on inputs of `size` bytes in all, at least `low` of
  which have been read

## Main results

* `Bag.Reads.bind`, `Bag.Reads.fails`, `Bag.Guarded.bind`: readers one after the other
* `Bag.Guarded.many`: a reader several times
* `Bag.reads_bytes`, `Bag.guarded_bytes`: the reader of some bytes, which all others are made of
-/

namespace BagOfCells.Bag

open Outcome

variable {α β : Type}

/-! ## One step -/

@[simp] theorem ofExcept_ok (a : α) : (ofExcept (.ok a : Except CellError α) : Read α) = pure a :=
  rfl

theorem get_bind (next : Input → Read α) (input : Input) :
    ((get : Read Input) >>= next) input = next input input :=
  rfl

theorem bytesLeft_eq (input : Input) : bytesLeft input = .ok input.rest.length input :=
  rfl

theorem ensure_true (fault : BagFault) : ensure true fault = pure () :=
  rfl

theorem ensure_eq_ok_iff {condition : Bool} {fault : BagFault} {input after : Input} {u : Unit} :
    ensure condition fault input = .ok u after ↔ condition = true ∧ after = input := by
  cases condition with
  | true =>
    constructor
    · rintro ⟨⟩
      exact ⟨rfl, rfl⟩
    · rintro ⟨-, rfl⟩
      rfl
  | false => exact ⟨nofun, fun h => nomatch h.1⟩

theorem readBytes_eq (n : Nat) (input : Input) :
    readBytes n input =
      if input.rest.length < n then .error (.bag (.unexpectedEnd input.position n)) input
      else if input.position + n < Bits.bound 64 then
        .ok (input.rest.take n) ⟨input.rest.drop n, input.position + n⟩
      else .error .overflow input := by
  unfold readBytes
  rw [get_bind, List.length_take]
  by_cases h : input.rest.length < n
  · rw [if_pos h, if_pos (by omega)]
    rfl
  · rw [if_neg h, if_neg (by omega), Checked.word]
    split <;> rfl

/-! ## Reading a value off some bytes -/

/-- A reader takes some bytes from the front of its input and gives a value, whatever follows. -/
def Reads (read : Read α) (bytes : Bytes) (value : α) : Prop :=
  ∀ rest position, position + bytes.length < Bits.bound 64 →
    read ⟨bytes ++ rest, position⟩ = .ok value ⟨rest, position + bytes.length⟩

theorem Reads.pure (a : α) : Reads (pure a) [] a :=
  fun _ _ _ => rfl

theorem Reads.bind {read : Read α} {next : α → Read β} {first second : Bytes} {a : α} {b : β}
    (hr : Reads read first a) (hn : Reads (next a) second b) :
    Reads (read >>= next) (first ++ second) b := by
  intro rest position hp
  rw [List.length_append] at hp
  rw [List.append_assoc, run_bind_of_ok (hr (second ++ rest) position (by omega)),
    hn rest _ (by omega), List.length_append, Nat.add_assoc]

/-- A reader that takes no bytes, followed by another one. -/
theorem Reads.bind_nil {read : Read α} {next : α → Read β} {bytes : Bytes} {a : α} {b : β}
    (hr : Reads read [] a) (hn : Reads (next a) bytes b) : Reads (read >>= next) bytes b :=
  hr.bind hn

/-- A reader followed by one that takes no bytes. -/
theorem Reads.bind_pure {read : Read α} {next : α → Read β} {bytes : Bytes} {a : α} {b : β}
    (hr : Reads read bytes a) (hn : Reads (next a) [] b) : Reads (read >>= next) bytes b :=
  List.append_nil bytes ▸ hr.bind hn

theorem reads_ensure {condition : Bool} (h : condition = true) (fault : BagFault) :
    Reads (ensure condition fault) [] () :=
  h ▸ Reads.pure ()

theorem reads_ofExcept {x : Except CellError α} {a : α} (h : x = .ok a) :
    Reads (ofExcept x) [] a :=
  h ▸ Reads.pure a

/-- **Some bytes** read back. -/
theorem reads_bytes {bytes : Bytes} {n : Nat} (h : bytes.length = n) :
    Reads (readBytes n) bytes bytes := by
  intro rest position hp
  rw [readBytes_eq, if_neg (by rw [List.length_append]; omega), if_pos (h ▸ hp), ← h,
    List.take_left, List.drop_left]

/-- **A number** reads back from its field, if it fits. -/
theorem reads_nat {size n : Nat} (h : n < 256 ^ size) :
    Reads (readNat size) (Bytes.ofNat size n) n := by
  refine (reads_bytes (Bytes.length_ofNat size n)).bind_pure ?_
  rw [Bytes.toNat_ofNat h]
  exact Reads.pure n

theorem reads_byte (byte : UInt8) : Reads (readNat 1) [byte] byte.toNat := by
  refine (reads_bytes (List.length_singleton (a := byte))).bind_pure ?_
  rw [Bytes.toNat_singleton]
  exact Reads.pure _

/-- A reader fails on input that begins with some bytes, whatever follows. -/
def Fails (read : Read α) (bytes : Bytes) (e : CellError) : Prop :=
  ∀ rest position, position + bytes.length < Bits.bound 64 →
    ∃ after, read ⟨bytes ++ rest, position⟩ = .error e after

theorem Reads.fails {read : Read α} {next : α → Read β} {first second : Bytes} {a : α}
    {e : CellError} (hr : Reads read first a) (hn : Fails (next a) second e) :
    Fails (read >>= next) (first ++ second) e := by
  intro rest position hp
  rw [List.length_append] at hp
  rw [List.append_assoc, run_bind_of_ok (hr (second ++ rest) position (by omega))]
  exact hn rest _ (by omega)

theorem Reads.fails_nil {read : Read α} {next : α → Read β} {bytes : Bytes} {a : α}
    {e : CellError} (hr : Reads read [] a) (hn : Fails (next a) bytes e) :
    Fails (read >>= next) bytes e :=
  hr.fails hn

theorem Fails.bind {read : Read α} {next : α → Read β} {bytes : Bytes} {e : CellError}
    (hr : Fails read bytes e) : Fails (read >>= next) bytes e := by
  intro rest position hp
  obtain ⟨after, h⟩ := hr rest position hp
  exact ⟨after, run_bind_of_error h⟩

theorem fails_ensure {condition : Bool} (h : condition = false) (fault : BagFault) :
    Fails (ensure condition fault) [] (.bag fault) := by
  intro rest position _
  rw [h]
  exact ⟨_, rfl⟩

/-! ## Guarded readers -/

section

variable {size low : Nat}

/-- What a guarded reader leaves behind: a value of a certain form further on in the same bytes, or
a refusal. -/
def Kept (size position : Nat) (post : α → Prop) : EStateM.Result CellError Input α → Prop
  | .ok value after =>
    after.position + after.rest.length = size ∧ position ≤ after.position ∧ post value
  | .error e _ => e.isRefusal = true

/-- On an input of `size` bytes, of which at least `low` have been read, a reader keeps within the
bytes, moves forward, and gives a value of a certain form or refuses. -/
def Guarded (size low : Nat) (read : Read α) (post : α → Prop) : Prop :=
  ∀ input : Input, input.position + input.rest.length = size → low ≤ input.position →
    Kept size input.position post (read input)

theorem Guarded.pure {a : α} {post : α → Prop} (h : post a) : Guarded size low (pure a) post :=
  fun _ hs _ => ⟨hs, le_rfl, h⟩

theorem Guarded.mono {read : Read α} {post post' : α → Prop} (hr : Guarded size low read post)
    (h : ∀ a, post a → post' a) : Guarded size low read post' := by
  intro input hs hl
  have := hr input hs hl
  cases hread : read input with
  | error e after => simpa only [hread, Kept] using this
  | ok a after =>
    rw [hread] at this
    exact ⟨this.1, this.2.1, h a this.2.2⟩

theorem Guarded.bind {read : Read α} {next : α → Read β} {mid : α → Prop} {post : β → Prop}
    (hr : Guarded size low read mid) (hn : ∀ a, mid a → Guarded size low (next a) post) :
    Guarded size low (read >>= next) post := by
  intro input hs hl
  have h := hr input hs hl
  cases hread : read input with
  | error e after =>
    rw [hread] at h
    rw [run_bind_of_error hread]
    exact h
  | ok a after =>
    -- the second reader begins where the first one has stopped, so no earlier
    rw [hread] at h
    rw [run_bind_of_ok hread]
    obtain ⟨hs', hl', hm⟩ := h
    have h' := hn a hm after hs' (hl.trans hl')
    cases hnext : next a after with
    | error e last =>
      rw [hnext] at h'
      exact h'
    | ok b last =>
      rw [hnext] at h'
      exact ⟨h'.1, hl'.trans h'.2.1, h'.2.2⟩

theorem Guarded.throw {e : CellError} (he : e.isRefusal = true) {post : α → Prop} :
    Guarded size low (throw e) post :=
  fun _ _ _ => he

theorem guarded_ensure (condition : Bool) (fault : BagFault) :
    Guarded size low (ensure condition fault) fun _ => condition = true := by
  unfold ensure
  split
  · next h => exact .pure h
  · exact .throw rfl

/-- What follows a test may rely on it. -/
theorem Guarded.after_ensure {condition : Bool} {fault : BagFault} {next : Unit → Read α}
    {post : α → Prop} (h : condition = true → Guarded size low (next ()) post) :
    Guarded size low (ensure condition fault >>= next) post := by
  apply (guarded_ensure condition fault).bind
  intro _ hcondition
  exact h hcondition

theorem guarded_ofExcept {x : Except CellError α} (h : ∀ e, x = .error e → e.isRefusal = true) :
    Guarded size low (ofExcept x) fun _ => True := by
  cases x with
  | ok a => exact .pure trivial
  | error e => exact .throw (h e rfl)

theorem guarded_ofExcept_of_ok {x : Except CellError α} {a : α} (h : x = .ok a) :
    Guarded size low (ofExcept x) fun _ => True :=
  h ▸ Guarded.pure trivial

/-- **Some bytes** are taken if they are there. -/
theorem guarded_bytes (hs : size < Bits.bound 64) (n : Nat) :
    Guarded size low (readBytes n) fun bytes => bytes.length = n := by
  intro input hsize _
  rw [readBytes_eq]
  split
  · rfl
  · next hn =>
    rw [if_pos (by omega)]
    have hd : (input.rest.drop n).length = input.rest.length - n := List.length_drop
    exact ⟨show input.position + n + (input.rest.drop n).length = size by omega,
      Nat.le_add_right _ _, List.length_take_of_le (Nat.le_of_not_lt hn)⟩

theorem guarded_nat (hs : size < Bits.bound 64) (n : Nat) :
    Guarded size low (readNat n) fun value => value < 256 ^ n := by
  apply (guarded_bytes hs n).bind
  intro bytes hb
  exact .pure (hb ▸ Bytes.toNat_lt bytes)

theorem readSince_eq {start : Nat} {input : Input} (h : start ≤ input.position) :
    readSince start input = .ok (input.position - start) input := by
  unfold readSince
  rw [get_bind, Checked.minus_eq_ok h]
  rfl

theorem readSince_eq_ok {start way : Nat} {input after : Input}
    (h : readSince start input = .ok way after) :
    start ≤ input.position ∧ way = input.position - start ∧ after = input := by
  by_cases hle : start ≤ input.position
  · rw [readSince_eq hle] at h
    cases h
    exact ⟨hle, rfl, rfl⟩
  · unfold readSince at h
    rw [get_bind, Checked.minus, if_neg hle] at h
    cases h

/-- How far a reader has come since a position behind which it began. -/
theorem guarded_since {start : Nat} (h : start ≤ low) :
    Guarded size low (readSince start) fun n => n ≤ size := by
  intro input hs hl
  rw [readSince_eq (h.trans hl)]
  exact ⟨hs, le_rfl, show input.position - start ≤ size by omega⟩

/-- What follows a note of the position begins at least there. -/
theorem Guarded.from_here {next : Nat → Read α} {post : α → Prop}
    (h : ∀ start, Guarded size start (next start) post) :
    Guarded size low (readSince 0 >>= next) post := by
  intro input hs _
  rw [run_bind_of_ok (readSince_eq (Nat.zero_le _)), Nat.sub_zero]
  exact h input.position input hs le_rfl

theorem guarded_bytesLeft : Guarded size low bytesLeft fun _ => True :=
  fun _ hs _ => ⟨hs, le_rfl, trivial⟩

theorem Guarded.many {read : Read α} {post : α → Prop} (hr : Guarded size low read post) (n : Nat) :
    Guarded size low (readMany read n) fun values => values.length = n ∧ ∀ a ∈ values, post a := by
  induction n with
  | zero => exact .pure ⟨rfl, by simp⟩
  | succ n ih =>
    apply hr.bind
    intro first hf
    apply ih.bind
    rintro rest ⟨hl, hrest⟩
    refine .pure ⟨by rw [List.length_cons, hl], ?_⟩
    simpa using ⟨hf, hrest⟩

end

end BagOfCells.Bag
