import BagOfCells.Proofs.Cell.Collision
import BagOfCells.Proofs.Dictionary.ReadBack
import Mathlib.Logic.Function.Basic

/-!
# Dictionaries and what was done to them

A dictionary stands for the finite map that the operations on it make, one after the other: an
operation whose key spells a number of the width updates the map there and gives what was there
before, every other one fails and leaves all as it was. The entries are the map in ascending order,
so two dictionaries that stand for one map are one dictionary, whatever was done to them, and have
one cell. Where the values agree in their hashes alone, the cells are the same unless two messages
hashed for the values have one digest.

## Main definitions

* `Dictionary.Operation`, `Operation.run`: what is done to a dictionary, and what it gives
* `Operation.target?`, `Operation.update`: the number its key spells, and the map it makes of a map
* `Dictionary.history width ops`, `Dictionary.mapAfter width ops`: a dictionary and a map after some
  operations

## Main results

* `Dictionary.Operation.run_cases`: what one operation does
* `Dictionary.represents_history`: what any operations do
* `Dictionary.forall₂_of_lookup`: entries in ascending order are told by what is found among them
* `Dictionary.history_independent`: all of it, and that the history does not matter
-/

namespace BagOfCells.Dictionary

open Outcome

/-- What is done to a dictionary. -/
inductive Operation where
  | set (key : Key) (value : Cell)
  | delete (key : Key)

namespace Operation

/-- What an operation on a dictionary gives: the value that was under the key, and the dictionary
with the change. -/
def run (d : Dictionary) : Operation → Except CellError (Option Cell × Dictionary)
  | set key value => d.set key value
  | delete key => d.delete key

/-- The dictionary after an operation; one that fails leaves it as it was. -/
def apply (d : Dictionary) (op : Operation) : Dictionary :=
  match op.run d with
  | .ok (_, d') => d'
  | .error _ => d

/-- The number at which an operation changes a map with keys of a width, if it succeeds: a number
that is set must be one of the width, one that is deleted need not. -/
def target? (width : Nat) : Operation → Option Nat
  | set key _ => (key.toNat width).toOption.filter (· < 2 ^ width)
  | delete key => (key.toNat width).toOption

/-- What an operation leaves under its key. -/
def binding : Operation → Option Cell
  | set _ value => some value
  | delete _ => none

/-- The map that an operation makes of a map. -/
def update (width : Nat) (map : Nat → Option Cell) (op : Operation) : Nat → Option Cell :=
  match op.target? width with
  | some n => Function.update map n op.binding
  | none => map

/-- The value that is put under a key is a made cell. -/
def Made (op : Operation) : Prop :=
  ∀ value ∈ op.binding, value.Made

end Operation

/-- The empty dictionary of a width after some operations. -/
def history (width : Nat) (ops : List Operation) : Dictionary :=
  ops.foldl Operation.apply (empty width)

/-- The empty map after some operations. -/
def mapAfter (width : Nat) (ops : List Operation) : Nat → Option Cell :=
  ops.foldl (Operation.update width) fun _ => none

/-! ## One operation -/

section

variable (key : Nat) (value : Cell) (entries : List (Nat × Cell)) (n : Nat)

theorem lookup_cons :
    ((key, value) :: entries).lookup n = if n = key then some value else entries.lookup n := by
  rw [List.lookup_cons]
  by_cases h : n = key
  · rw [if_pos h, beq_iff_eq.mpr h]
  · rw [if_neg h, beq_eq_false_iff_ne.mpr h]

theorem lookup_insert :
    (insert key value entries).lookup n = if n = key then some value else entries.lookup n := by
  induction entries with
  | nil => exact lookup_cons key value [] n
  | cons first rest ih =>
    rw [insert]
    split
    · exact lookup_cons ..
    split
    · next heq =>
      rw [lookup_cons, lookup_cons, ← heq]
      split <;> rfl
    · next hne =>
      rw [lookup_cons, lookup_cons, ih]
      split
      · next hfirst => rw [if_neg (hfirst ▸ Ne.symm hne)]
      · rfl

theorem lookup_filter_ne :
    (entries.filter (·.1 ≠ key)).lookup n = if n = key then none else entries.lookup n := by
  induction entries with
  | nil => rw [List.filter_nil, List.lookup_nil, ite_self]
  | cons first rest ih =>
    rw [List.filter_cons, lookup_cons]
    split
    · next hne =>
      rw [lookup_cons, ih]
      split
      · next hfirst => rw [if_neg (hfirst ▸ of_decide_eq_true hne)]
      · rfl
    · next heq =>
      have hkey : first.1 = key := by simpa using heq
      rw [ih, hkey]
      split <;> rfl

end

/-- A key that has no number in a dictionary is out of its range. -/
theorem toNat_eq_error {key : Key} {width : Nat} {e : CellError}
    (h : key.toNat width = .error e) : ∃ cause, e = .valueOutOfRange cause := by
  cases key with
  | word value => cases h
  | number value => cases h
  | bits data length =>
    rw [Key.toNat] at h
    split at h
    · cases h
      exact ⟨_, rfl⟩
    · rw [Key.ofBits] at h
      split at h <;> cases h
      exact ⟨_, rfl⟩
  | address a =>
    rw [Key.toNat] at h
    split at h <;> cases h
    exact ⟨_, rfl⟩

theorem isRefusal_of_toNat {key : Key} {width : Nat} {e : CellError}
    (h : key.toNat width = .error e) : e.isRefusal = true := by
  obtain ⟨cause, rfl⟩ := toNat_eq_error h
  rfl

section

variable {d : Dictionary} {key : Key} {n : Nat}

theorem index_of_lt (hkey : key.toNat d.width = .ok n) (h : n < 2 ^ d.width) :
    d.index key = .ok n := by
  rw [index, hkey]
  exact if_neg (not_lt.mpr (Bits.size_le_iff_lt.mpr h))

theorem index_of_not_lt (hkey : key.toNat d.width = .ok n) (h : ¬ n < 2 ^ d.width) :
    d.index key = .error (.valueOutOfRange (.keyWidth n d.width)) := by
  rw [index, hkey]
  exact if_pos (not_le.mp (mt Bits.size_le_iff_lt.mp h))

theorem index_of_error {e : CellError} (hkey : key.toNat d.width = .error e) :
    d.index key = .error e := by
  rw [index, hkey]
  rfl

end

namespace Operation

variable {d : Dictionary} {op : Operation}

theorem apply_of_ok {old : Option Cell} {d' : Dictionary} (h : op.run d = .ok (old, d')) :
    op.apply d = d' := by
  rw [apply, h]

theorem apply_of_error {e : CellError} (h : op.run d = .error e) : op.apply d = d := by
  rw [apply, h]

/-- **One operation** either succeeds, gives what was under its number and changes the map there, or
it fails and changes nothing. -/
theorem run_cases (d : Dictionary) (op : Operation) :
    (∃ n, op.target? d.width = some n ∧ op.run d = .ok (d.entries.lookup n, op.apply d) ∧
        (op.apply d).width = d.width ∧
        ∀ m, (op.apply d).entries.lookup m = if m = n then op.binding else d.entries.lookup m) ∨
      op.target? d.width = none ∧ (∃ e, op.run d = .error e ∧ e.isRefusal = true) ∧
        op.apply d = d := by
  have failing {e : CellError} (ht : op.target? d.width = none) (h : op.run d = .error e)
      (he : e.isRefusal = true) : op.target? d.width = none ∧
        (∃ e, op.run d = .error e ∧ e.isRefusal = true) ∧ op.apply d = d :=
    ⟨ht, ⟨e, h, he⟩, apply_of_error h⟩
  cases op with
  | set key value =>
    cases hkey : key.toNat d.width with
    | error e =>
      have hrun : (set key value).run d = .error e := by
        rw [run, Dictionary.set, index_of_error hkey]
        rfl
      refine .inr (failing ?_ hrun (isRefusal_of_toNat hkey))
      rw [target?, hkey]
      rfl
    | ok n =>
      have ht : (set key value).target? d.width = if n < 2 ^ d.width then some n else none := by
        rw [target?, hkey]
        simp [Except.toOption, Option.filter]
      by_cases hn : n < 2 ^ d.width
      · rw [if_pos hn] at ht
        have hrun : (set key value).run d =
            .ok (d.entries.lookup n, ⟨d.width, insert n value d.entries⟩) := by
          rw [run, Dictionary.set, index_of_lt hkey hn]
          rfl
        rw [apply_of_ok hrun]
        exact .inl ⟨n, ht, hrun, rfl, lookup_insert n value d.entries⟩
      · rw [if_neg hn] at ht
        have hrun : (set key value).run d =
            .error (.valueOutOfRange (.keyWidth n d.width)) := by
          rw [run, Dictionary.set, index_of_not_lt hkey hn]
          rfl
        exact .inr (failing ht hrun rfl)
  | delete key =>
    cases hkey : key.toNat d.width with
    | error e =>
      have hrun : (delete key).run d = .error e := by
        rw [run, Dictionary.delete, hkey]
        rfl
      refine .inr (failing ?_ hrun (isRefusal_of_toNat hkey))
      rw [target?, hkey]
      rfl
    | ok n =>
      have hrun : (delete key).run d =
          .ok (d.entries.lookup n, ⟨d.width, d.entries.filter (·.1 ≠ n)⟩) := by
        rw [run, Dictionary.delete, hkey]
        rfl
      have ht : (delete key).target? d.width = some n := by
        rw [target?, hkey]
        rfl
      rw [apply_of_ok hrun]
      exact .inl ⟨n, ht, hrun, rfl, lookup_filter_ne n d.entries⟩

end Operation

/-! ## Any operations -/

/-- A dictionary of a width that keeps the invariant stands for the map of what is found in it. -/
structure Represents (d : Dictionary) (width : Nat) (map : Nat → Option Cell) : Prop where
  width_eq : d.width = width
  lookup_eq : ∀ n, d.entries.lookup n = map n
  valid : d.Valid

section

variable {width : Nat} {map : Nat → Option Cell} {d : Dictionary} {ops : List Operation}

theorem Valid.apply {op : Operation} (h : d.Valid) (made : op.Made) : (op.apply d).Valid := by
  unfold Operation.apply
  split
  · next hrun =>
    cases op with
    | set key value => exact h.set (made value rfl) hrun
    | delete key => exact h.delete hrun
  · exact h

/-- **The map is kept** by an operation, whether it succeeds or fails. -/
theorem Represents.apply {op : Operation} (h : d.Represents width map) (made : op.Made) :
    (op.apply d).Represents width (op.update width map) := by
  obtain ⟨rfl, hlookup, hvalid⟩ := h
  rcases op.run_cases d with ⟨n, ht, -, hwidth, hchange⟩ | ⟨ht, -, hsame⟩
  · refine ⟨hwidth, ?_, hvalid.apply made⟩
    intro m
    rw [hchange, hlookup]
    simp only [Operation.update, ht, Function.update_apply]
  · rw [hsame, Operation.update, ht]
    exact ⟨rfl, hlookup, hvalid⟩

theorem Represents.foldl (h : d.Represents width map) (made : ∀ op ∈ ops, op.Made) :
    (ops.foldl Operation.apply d).Represents width (ops.foldl (Operation.update width) map) := by
  induction ops generalizing d map with
  | nil => exact h
  | cons op ops ih =>
    exact ih (h.apply (made op List.mem_cons_self)) fun o ho => made o (List.mem_cons_of_mem _ ho)

/-- **Any operations** on the empty dictionary give one that stands for the map they make. -/
theorem represents_history (width : Nat) (made : ∀ op ∈ ops, op.Made) :
    (history width ops).Represents width (mapAfter width ops) :=
  Represents.foldl ⟨rfl, fun _ => rfl, valid_empty width⟩ made

end

/-! ## Entries and the map -/

section

variable {entries entries' : List (Nat × Cell)} {n : Nat}

theorem mem_of_lookup {value : Cell} (h : entries.lookup n = some value) :
    (n, value) ∈ entries := by
  obtain ⟨before, after, rfl, -⟩ := List.lookup_eq_some_iff.mp h
  exact List.mem_append_right _ List.mem_cons_self

theorem lookup_of_lt (h : ∀ entry ∈ entries, n < entry.1) : entries.lookup n = none :=
  List.lookup_eq_none_iff.mpr fun entry he => bne_iff_ne.mpr (h entry he).ne

/-- **Entries in ascending order** are told by what is found among them: where the same keys are
found with related values, the entries are related one by one. -/
theorem forall₂_of_lookup (related : Cell → Cell → Prop)
    (h : entries.Pairwise fun a b => a.1 < b.1) (h' : entries'.Pairwise fun a b => a.1 < b.1)
    (hrel : ∀ n, Option.Rel related (entries.lookup n) (entries'.lookup n)) :
    List.Forall₂ (fun a b => a.1 = b.1 ∧ related a.2 b.2) entries entries' := by
  induction entries generalizing entries' with
  | nil =>
    rcases entries' with _ | ⟨⟨k', v'⟩, rest'⟩
    · exact .nil
    · have hk := hrel k'
      rw [List.lookup_cons_self] at hk
      cases hk
  | cons first rest ih =>
    obtain ⟨k, v⟩ := first
    rcases entries' with _ | ⟨⟨k', v'⟩, rest'⟩
    · have hk := hrel k
      rw [List.lookup_cons_self] at hk
      cases hk
    obtain ⟨hfirst, hrest⟩ := List.pairwise_cons.mp h
    obtain ⟨hfirst', hrest'⟩ := List.pairwise_cons.mp h'
    -- the smaller of two different first keys would be found on one side only
    rcases lt_trichotomy k k' with hlt | rfl | hlt
    · have hk := hrel k
      have habove : ∀ entry ∈ (k', v') :: rest', k < entry.1 :=
        List.forall_mem_cons.mpr ⟨hlt, fun e he => hlt.trans (hfirst' e he)⟩
      rw [List.lookup_cons_self, lookup_of_lt habove] at hk
      cases hk
    · have hk := hrel k
      rw [List.lookup_cons_self, List.lookup_cons_self] at hk
      cases hk with
      | some hv =>
        refine .cons ⟨rfl, hv⟩ (ih hrest hrest' ?_)
        intro n
        by_cases hn : n = k
        · rw [hn, lookup_of_lt hfirst, lookup_of_lt hfirst']
          exact .none
        · have hn' := hrel n
          rwa [lookup_cons, lookup_cons, if_neg hn, if_neg hn] at hn'
    · have hk := hrel k'
      have habove : ∀ entry ∈ (k, v) :: rest, k' < entry.1 :=
        List.forall_mem_cons.mpr ⟨hlt, fun e he => hlt.trans (hfirst e he)⟩
      rw [List.lookup_cons_self, lookup_of_lt habove] at hk
      cases hk

theorem eq_of_lookup (h : entries.Pairwise fun a b => a.1 < b.1)
    (h' : entries'.Pairwise fun a b => a.1 < b.1)
    (heq : ∀ n, entries.lookup n = entries'.lookup n) : entries = entries' := by
  have hrel := forall₂_of_lookup Eq h h' fun n => by
    rw [heq]
    cases entries'.lookup n with
    | none => exact .none
    | some value => exact .some rfl
  rw [← List.forall₂_eq_eq_eq]
  exact hrel.imp fun _ _ he => Prod.ext he.1 he.2

theorem beq_of_forall₂
    (h : List.Forall₂ (fun a b => a.1 = b.1 ∧ (a.2 == b.2) = true) entries entries') :
    (entries == entries') = true := by
  induction h with
  | nil => rfl
  | @cons a b as bs he _ ih =>
    rw [List.cons_beq_cons, ih, Bool.and_true]
    exact Bool.and_eq_true_iff.mpr ⟨beq_iff_eq.mpr he.1, he.2⟩

end

/-! ## One map, one dictionary -/

section

variable {width : Nat} {map map' : Nat → Option Cell} {d d' : Dictionary}

/-- One map is found in one dictionary of a width. -/
theorem Represents.eq (h : d.Represents width map) (h' : d'.Represents width map) : d = d' := by
  have hentries : d.entries = d'.entries := eq_of_lookup h.valid.sorted h'.valid.sorted fun n =>
    (h.lookup_eq n).trans (h'.lookup_eq n).symm
  obtain ⟨hwidth, -, -⟩ := h
  obtain ⟨hwidth', -, -⟩ := h'
  cases d
  cases d'
  simp only at hwidth hwidth' hentries
  rw [hwidth, hwidth', hentries]

/-- Dictionaries with the same keys and equal values are equal. -/
theorem Represents.beq (h : d.Represents width map) (h' : d'.Represents width map')
    (hrel : ∀ n, Option.Rel (fun a b => (a == b) = true) (map n) (map' n)) :
    (d == d') = true := by
  have hentries : (d.entries == d'.entries) = true := by
    refine beq_of_forall₂ (forall₂_of_lookup (fun a b => (a == b) = true) h.valid.sorted
      h'.valid.sorted fun n => ?_)
    rw [h.lookup_eq, h'.lookup_eq]
    exact hrel n
  have hwidth : (d.width == d'.width) = true := beq_iff_eq.mpr (h.width_eq.trans h'.width_eq.symm)
  cases d
  cases d'
  exact Bool.and_eq_true_iff.mpr ⟨hwidth, hentries⟩

/-- Where equal values have one digest each, the two maps are one. -/
theorem Represents.map_eq (h : d.Represents width map) (h' : d'.Represents width map')
    (hrel : ∀ n, Option.Rel (fun a b => (a == b) = true) (map n) (map' n))
    (free : Cell.CollisionFree ((d.entries ++ d'.entries).map Prod.snd)) : map = map' := by
  have made : ∀ root ∈ (d.entries ++ d'.entries).map Prod.snd, root.Made := by
    intro root hroot
    obtain ⟨entry, he, rfl⟩ := List.mem_map.mp hroot
    rcases List.mem_append.mp he with he | he
    · exact h.valid.made entry he
    · exact h'.valid.made entry he
  funext n
  have hn := hrel n
  generalize hv : map n = value? at hn ⊢
  generalize hv' : map' n = value?' at hn ⊢
  cases hn with
  | none => rfl
  | @some value value' heq =>
    have hmem : (n, value) ∈ d.entries := mem_of_lookup ((h.lookup_eq n).trans hv)
    have hmem' : (n, value') ∈ d'.entries := mem_of_lookup ((h'.lookup_eq n).trans hv')
    have hhash : value.hash = value'.hash := beq_iff_eq.mp heq
    exact congrArg some (Cell.eq_of_hash_eq made free
      (Cell.reachable_self (List.mem_map_of_mem (List.mem_append_left _ hmem)))
      (Cell.reachable_self (List.mem_map_of_mem (List.mem_append_right _ hmem'))) hhash)

end

/-- **The history of a dictionary does not matter.** After any operations on the empty dictionary of
a width, it stands for the map that the operations make; its keys are numbers of the width, in
ascending order; and a further operation either succeeds and gives what the map has under its
number, or it fails and changes nothing. If other operations make the same map, they give the same
dictionary; if they make one with the same keys and equal values, they give an equal one, and then
the cells are the same, or both fail alike, unless two different messages hashed for the values have
one digest. -/
theorem history_independent (width : Nat) (ops : List Operation) (made : ∀ op ∈ ops, op.Made) :
    ((history width ops).width = width ∧
      (∀ n, (history width ops).entries.lookup n = mapAfter width ops n) ∧
      (∀ entry ∈ (history width ops).entries, entry.1 < 2 ^ width) ∧
      (history width ops).entries.Pairwise fun a b => a.1 < b.1) ∧
    (∀ op : Operation,
      (∃ n, op.target? width = some n ∧ op.run (history width ops) =
        .ok (mapAfter width ops n, history width (ops ++ [op]))) ∨
      op.target? width = none ∧
        (∃ e, op.run (history width ops) = .error e ∧ e.isRefusal = true) ∧
        history width (ops ++ [op]) = history width ops) ∧
    ∀ ops' : List Operation, (∀ op ∈ ops', op.Made) →
      (mapAfter width ops = mapAfter width ops' → history width ops = history width ops') ∧
      ((∀ n, Option.Rel (fun a b => (a == b) = true) (mapAfter width ops n)
          (mapAfter width ops' n)) →
        (history width ops == history width ops') = true ∧
        ((history width ops).toCell? = (history width ops').toCell? ∨
          Cell.Collision
            (((history width ops).entries ++ (history width ops').entries).map Prod.snd))) := by
  have h := represents_history width made
  refine ⟨⟨h.width_eq, h.lookup_eq, ?_, h.valid.sorted⟩, ?_, ?_⟩
  · have hlt := h.valid.key_lt
    rwa [h.width_eq] at hlt
  · intro op
    have hnext : history width (ops ++ [op]) = op.apply (history width ops) :=
      List.foldl_append
    have hcases := op.run_cases (history width ops)
    rw [h.width_eq] at hcases
    rw [hnext]
    rcases hcases with ⟨n, ht, hrun, -, -⟩ | hfail
    · exact .inl ⟨n, ht, h.lookup_eq n ▸ hrun⟩
    · exact .inr hfail
  · intro ops' made'
    have h' := represents_history width made'
    refine ⟨fun hmap => h.eq (hmap ▸ h'), fun hrel => ⟨h.beq h' hrel, ?_⟩⟩
    rcases Cell.collision_or_free
        (((history width ops).entries ++ (history width ops').entries).map Prod.snd) with hc | free
    · exact .inr hc
    · left
      rw [h.eq ((h.map_eq h' hrel free) ▸ h')]

/-- A key that is put in and taken away again, and one that does not fit. -/
def detour : List Operation :=
  [.set (.word 1) .empty, .set (.number 300) .empty, .delete (.word 1), .set (.bits [2] 8) .empty]

/-- One key. -/
def direct : List Operation := [.set (.word 2) .empty]

/-- A detour makes no difference. -/
theorem history_independent_detour :
    (∀ op ∈ detour, op.Made) ∧ (∀ op ∈ direct, op.Made) ∧
      mapAfter 8 detour = mapAfter 8 direct ∧ history 8 detour = history 8 direct := by
  have made {key : Key} : (Operation.set key .empty).Made := by
    intro value hv
    cases hv
    exact Cell.made_empty
  have hdetour : ∀ op ∈ detour, op.Made := by
    simp only [detour, List.forall_mem_cons]
    exact ⟨made, made, nofun, made, nofun⟩
  have hdirect : ∀ op ∈ direct, op.Made := by
    simp only [direct, List.forall_mem_cons]
    exact ⟨made, nofun⟩
  have hmap : mapAfter 8 detour = mapAfter 8 direct := by
    have hleft : mapAfter 8 detour = Function.update (Function.update (Function.update
        (fun _ => none) 1 (some .empty)) 1 none) 2 (some .empty) := rfl
    have hright : mapAfter 8 direct = Function.update (fun _ => none) 2 (some .empty) := rfl
    rw [hleft, hright, Function.update_idem, Function.update_eq_self_iff.mpr rfl]
  exact ⟨hdetour, hdirect, hmap, ((history_independent 8 detour hdetour).2.2 direct hdirect).1 hmap⟩

end BagOfCells.Dictionary
