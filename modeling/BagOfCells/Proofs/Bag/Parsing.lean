import BagOfCells.Proofs.Bag.Reader

/-!
# What a reader accepts

A reader parses a form if it succeeds exactly on the inputs that begin with bytes of that form,
gives the value the bytes stand for and takes just them. The form of a reader that runs after
another is that of bytes laid behind those of the first; a test takes no bytes and adds a condition.
So the form of a whole reader is put together from those of its steps, and says both that what it
accepts is of the form and that all that is of the form is accepted.

## Main definitions

* `Bag.Parses size position read form`: on inputs of `size` bytes, of which `position` have been
  read, a reader parses a form

## Main results

* `Bag.Parses.bind`, `Bag.Parses.bind_printed`: readers one after the other
* `Bag.Parses.after_ensure`, `Bag.Parses.after_ofExcept`: a test in front of a reader
* `Bag.parses_nat`: a number in a field
* `Bag.Parses.many`: a reader several times
-/

namespace BagOfCells.Bag

open Outcome

variable {α β : Type} {size position : Nat}

/-- On inputs of `size` bytes, of which `position` have been read, a reader succeeds only where
bytes of a certain form are in front, gives their value and takes them; and as long as a machine
word counts the bytes, it succeeds wherever there are such bytes. -/
structure Parses (size position : Nat) (read : Read α) (form : Bytes → α → Prop) : Prop where
  sound : ∀ rest value after, position + rest.length = size →
    read ⟨rest, position⟩ = .ok value after →
      ∃ bytes, rest = bytes ++ after.rest ∧ after.position = position + bytes.length ∧
        form bytes value
  complete : size < Bits.bound 64 → ∀ bytes value rest,
    position + (bytes ++ rest).length = size → form bytes value →
      read ⟨bytes ++ rest, position⟩ = .ok value ⟨rest, position + bytes.length⟩

theorem Parses.congr {read : Read α} {form form' : Bytes → α → Prop}
    (hr : Parses size position read form)
    (h : ∀ bytes a, position + bytes.length ≤ size → (form bytes a ↔ form' bytes a)) :
    Parses size position read form' := by
  constructor
  · intro rest a after hs hread
    obtain ⟨bytes, rfl, hp, hform⟩ := hr.sound rest a after hs hread
    rw [List.length_append] at hs
    exact ⟨bytes, rfl, hp, (h bytes a (by omega)).mp hform⟩
  · intro hw bytes a rest hs hform
    refine hr.complete hw bytes a rest hs ((h bytes a ?_).mpr hform)
    rw [List.length_append] at hs
    omega

theorem parses_pure (a : α) : Parses size position (pure a) fun bytes b => bytes = [] ∧ b = a := by
  constructor
  · rintro rest _ _ - ⟨⟩
    exact ⟨[], rfl, rfl, rfl, rfl⟩
  · rintro - _ _ rest - ⟨rfl, rfl⟩
    rfl

theorem parses_throw (e : CellError) :
    Parses size position (throw e : Read α) fun _ _ => False := by
  constructor
  · rintro rest a after - ⟨⟩
  · rintro - _ _ _ - ⟨⟩

/-! ## One step after the other -/

/-- **Two readers.** The bytes of the second one stand behind those of the first. -/
theorem Parses.bind {read : Read α} {next : α → Read β} {form : Bytes → α → Prop}
    {form' : Bytes → α → Bytes → β → Prop} (hr : Parses size position read form)
    (hn : ∀ first a, form first a →
      Parses size (position + first.length) (next a) (form' first a)) :
    Parses size position (read >>= next) fun bytes b =>
      ∃ first a second, bytes = first ++ second ∧ form first a ∧ form' first a second b := by
  constructor
  · intro rest b after hs hread
    obtain ⟨a, ⟨middle, p⟩, h, hnext⟩ := run_bind_eq_ok_iff.mp hread
    obtain ⟨first, hrest, hp, hform⟩ := hr.sound rest a _ hs h
    change rest = first ++ middle at hrest
    change p = position + first.length at hp
    subst hrest hp
    rw [List.length_append, ← Nat.add_assoc] at hs
    obtain ⟨second, hmiddle, hafter, hform'⟩ := (hn first a hform).sound middle b after hs hnext
    refine ⟨first ++ second, ?_, ?_, first, a, second, rfl, hform, hform'⟩
    · rw [hmiddle, List.append_assoc]
    · rw [hafter, List.length_append, Nat.add_assoc]
  · rintro hw _ b rest hs ⟨first, a, second, rfl, hform, hform'⟩
    rw [List.append_assoc] at hs ⊢
    rw [run_bind_of_ok (hr.complete hw first a _ hs hform), List.length_append, ← Nat.add_assoc]
    rw [List.length_append, ← Nat.add_assoc] at hs
    exact (hn first a hform).complete hw second b rest hs hform'

/-- A reader of what is printed from a value, followed by another one. -/
theorem Parses.bind_printed {read : Read α} {next : α → Read β} {print : α → Bytes}
    {valid : α → Prop} {form : α → Bytes → β → Prop}
    (hr : Parses size position read fun bytes a => bytes = print a ∧ valid a)
    (hn : ∀ a, valid a → Parses size (position + (print a).length) (next a) (form a)) :
    Parses size position (read >>= next) fun bytes b =>
      ∃ a rest, bytes = print a ++ rest ∧ valid a ∧ form a rest b := by
  refine (hr.bind fun first a h => h.1 ▸ hn a h.2).congr fun bytes b _ => ?_
  constructor
  · rintro ⟨_, a, rest, rfl, ⟨rfl, ha⟩, hform⟩
    exact ⟨a, rest, rfl, ha, hform⟩
  · rintro ⟨a, rest, rfl, ha, hform⟩
    exact ⟨_, a, rest, rfl, ⟨rfl, ha⟩, hform⟩

/-- One of two readers. -/
theorem Parses.ite {c : Prop} [Decidable c] {read read' : Read α} {form form' : Bytes → α → Prop}
    (h : c → Parses size position read form) (h' : ¬ c → Parses size position read' form') :
    Parses size position (if c then read else read') fun bytes a =>
      if c then form bytes a else form' bytes a := by
  split
  · next hc => exact h hc
  · next hc => exact h' hc

/-- A step that leaves the input as it is. -/
theorem Parses.after_silent {read : Read α} {next : α → Read β} {form : Bytes → β → Prop} {a : α}
    (h : ∀ rest, position + rest.length = size →
      read ⟨rest, position⟩ = .ok a ⟨rest, position⟩)
    (hn : Parses size position (next a) form) : Parses size position (read >>= next) form := by
  constructor
  · intro rest b after hs hread
    rw [run_bind_of_ok (h rest hs)] at hread
    exact hn.sound rest b after hs hread
  · intro hw bytes b rest hs hform
    rw [run_bind_of_ok (h _ hs)]
    exact hn.complete hw bytes b rest hs hform

/-- A computation takes nothing and must succeed. -/
theorem Parses.after_ofExcept {x : Except CellError α} {next : α → Read β}
    {form : α → Bytes → β → Prop} (h : ∀ a, x = .ok a → Parses size position (next a) (form a)) :
    Parses size position (ofExcept x >>= next) fun bytes b => ∃ a, x = .ok a ∧ form a bytes b := by
  cases x with
  | ok a =>
    rw [ofExcept_ok, pure_bind]
    exact (h a rfl).congr fun _ _ _ => by simp
  | error e =>
    constructor
    · rintro rest b after - ⟨⟩
    · rintro - _ _ _ - ⟨_, ⟨⟩, _⟩

/-- A test takes nothing and adds a condition. -/
theorem Parses.after_ensure {condition : Bool} {fault : BagFault} {next : Unit → Read α}
    {form : Bytes → α → Prop} (h : condition = true → Parses size position (next ()) form) :
    Parses size position (ensure condition fault >>= next) fun bytes a =>
      condition = true ∧ form bytes a := by
  unfold ensure
  cases condition with
  | true => exact (h rfl).congr fun _ _ _ => by simp
  | false =>
    constructor
    · rintro rest a after - ⟨⟩
    · rintro - _ _ _ - ⟨⟨⟩, _⟩

theorem parses_ofExcept (x : Except CellError α) :
    Parses size position (ofExcept x) fun bytes a => x = .ok a ∧ bytes = [] := by
  have hpure (a : α) : Parses size position (pure a) _ := parses_pure a
  have h := Parses.after_ofExcept fun a (_ : x = .ok a) => hpure a
  rw [bind_pure] at h
  refine h.congr fun bytes a _ => ?_
  constructor
  · rintro ⟨_, ha, rfl, rfl⟩
    exact ⟨ha, rfl⟩
  · rintro ⟨ha, rfl⟩
    exact ⟨a, ha, rfl, rfl⟩

theorem parses_ensure (condition : Bool) (fault : BagFault) :
    Parses size position (ensure condition fault) fun bytes _ => condition = true ∧ bytes = [] := by
  have hpure : Parses size position (pure ()) _ := parses_pure ()
  have h : Parses size position (ensure condition fault >>= pure) _ :=
    Parses.after_ensure fun _ => hpure
  rw [bind_pure] at h
  exact h.congr fun _ _ _ => by simp

/-- The way come since a position that has been passed. -/
theorem Parses.after_since {start : Nat} (hle : start ≤ position) {next : Nat → Read α}
    {form : Bytes → α → Prop} (h : Parses size position (next (position - start)) form) :
    Parses size position (readSince start >>= next) form :=
  h.after_silent fun _ _ => readSince_eq hle

theorem Parses.after_left {next : Nat → Read α} {form : Bytes → α → Prop}
    (h : Parses size position (next (size - position)) form) :
    Parses size position (bytesLeft >>= next) form := by
  refine h.after_silent fun rest hs => ?_
  rw [← hs, Nat.add_sub_cancel_left]
  rfl

/-! ## Bytes and numbers -/

theorem parses_bytes (n : Nat) :
    Parses size position (readBytes n) fun bytes value => bytes.length = n ∧ value = bytes := by
  constructor
  · intro rest value after _ h
    rw [readBytes_eq] at h
    split at h
    · cases h
    · next hn =>
      split at h
      · cases h
        have hl : (rest.take n).length = n := List.length_take_of_le (Nat.le_of_not_lt hn)
        exact ⟨rest.take n, (List.take_append_drop n rest).symm, by rw [hl], hl, rfl⟩
      · cases h
  · rintro hw bytes _ rest hs ⟨rfl, rfl⟩
    rw [List.length_append] at hs
    rw [readBytes_eq, if_neg (by rw [List.length_append]; omega), if_pos (by dsimp only; omega),
      List.take_left, List.drop_left]

/-- **A number** is the field it is written in. -/
theorem parses_nat (n : Nat) :
    Parses size position (readNat n) fun bytes value =>
      bytes = Bytes.ofNat n value ∧ value < 256 ^ n := by
  refine ((parses_bytes n).bind fun _ a _ => parses_pure (Bytes.toNat a)).congr ?_
  intro bytes value _
  constructor
  · rintro ⟨first, _, _, rfl, ⟨rfl, rfl⟩, rfl, rfl⟩
    rw [List.append_nil, Bytes.ofNat_toNat]
    exact ⟨rfl, Bytes.toNat_lt _⟩
  · rintro ⟨rfl, hlt⟩
    exact ⟨_, _, [], (List.append_nil _).symm, ⟨Bytes.length_ofNat .., rfl⟩, rfl,
      (Bytes.toNat_ofNat hlt).symm⟩

/-- **A reader several times.** What is printed from the values in order is read. -/
theorem Parses.many {read : Read α} {print : α → Bytes} {valid : α → Prop}
    (hr : ∀ position, Parses size position read fun bytes a => bytes = print a ∧ valid a)
    (n : Nat) :
    Parses size position (readMany read n) fun bytes values =>
      bytes = (values.map print).flatten ∧ values.length = n ∧ ∀ a ∈ values, valid a := by
  induction n generalizing position with
  | zero =>
    refine (parses_pure []).congr fun bytes values _ => ?_
    constructor
    · rintro ⟨rfl, rfl⟩
      simp
    · rintro ⟨rfl, hl, -⟩
      rw [List.length_eq_zero_iff.mp hl]
      exact ⟨rfl, rfl⟩
  | succ n ih =>
    refine ((hr position).bind_printed fun first _ =>
      ih.bind_printed fun rest _ => parses_pure (first :: rest)).congr fun bytes values _ => ?_
    constructor
    · rintro ⟨first, _, rfl, hfirst, rest, _, rfl, ⟨rfl, hrest⟩, rfl, rfl⟩
      rw [List.append_nil, List.map_cons, List.flatten_cons]
      exact ⟨rfl, rfl, List.forall_mem_cons.mpr ⟨hfirst, hrest⟩⟩
    · rintro ⟨rfl, hl, hvalid⟩
      obtain ⟨first, rest, rfl⟩ := List.exists_cons_of_length_eq_add_one hl
      obtain ⟨hfirst, hrest⟩ := List.forall_mem_cons.mp hvalid
      exact ⟨first, _, rfl, hfirst, rest, [], (List.append_nil _).symm, ⟨Nat.succ.inj hl, hrest⟩,
        rfl, rfl⟩

end BagOfCells.Bag
