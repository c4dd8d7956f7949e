import BagOfCells.Dictionary.Label
import BagOfCells.Proofs.Wire.Law

/-!
# Labels that read back

A label reads back from each of its three forms, of which the form for one repeated bit is there for
uniform labels alone. The form that is written is one of these.

## Main results

* `Slice.reads_form`: a label is read from each of its forms
* `Builder.writes_label`: a label is written in one of them
* `Builder.readsBack_label`: a label reads back
-/

namespace BagOfCells

variable {rest : Bool}

/-! ## The width of a length -/

namespace Label

variable {m n : Nat}

theorem lengthWidth_le (hm : m < 2 ^ 64) : lengthWidth m ≤ 64 :=
  Bits.size_le_iff_lt.mpr hm

theorem lt_two_pow_lengthWidth (hn : n ≤ m) : n < 2 ^ lengthWidth m :=
  hn.trans_lt (Bits.size_le_iff_lt.mp le_rfl)

/-- A length is the machine word that its bits spell. -/
theorem toNat_toWord_length (hm : m < 2 ^ 64) (hn : n ≤ m) :
    (Bits.toWord (Bits.ofNat (lengthWidth m) n)).toNat = n := by
  have hw : (Bits.ofNat (lengthWidth m) n).length ≤ 64 :=
    (Bits.length_ofNat ..).trans_le (lengthWidth_le hm)
  rw [Bits.toNat_toWord hw, Bits.toNat_ofNat (lt_two_pow_lengthWidth hn)]

end Label

/-! ## Parts of a label -/

namespace Slice

theorem reads_unary {m left n : Nat} (hn : n ≤ left) (hm : left ≤ m) :
    Reads (loadUnary m left) rest (List.replicate n true ++ [false]) [] (m - left + n) := by
  induction left generalizing n with
  | zero =>
    obtain rfl := Nat.le_zero.mp hn
    exact (reads_bit false).bind (.pure m)
  | succ left ih =>
    cases n with
    | zero => exact (reads_bit false).bind (.pure (m - (left + 1)))
    | succ n =>
      have hvalue : m - (left + 1) + (n + 1) = m - left + n := by omega
      rw [hvalue]
      exact (reads_bit true).bind (ih (Nat.le_of_succ_le_succ hn) (Nat.le_of_succ_le hm))

theorem reads_each (bits : Bits) : Reads (loadEach bits.length) rest bits [] bits := by
  induction bits with
  | nil => exact .pure []
  | cons bit bits ih => exact (reads_bit bit).bind (ih.map (bit :: ·))

/-- A length reads back from the width of the longest one. -/
theorem reads_length {m n : Nat} (hm : m < 2 ^ 64) (hn : n ≤ m) :
    Reads (loadLength m) rest (Bits.ofNat (Label.lengthWidth m) n) [] n := by
  have hl := Bits.length_ofNat (Label.lengthWidth m) n
  refine (reads_word (Label.lengthWidth_le hm) hl).bind_nothing ?_
  rw [Label.toNat_toWord_length hm hn, if_neg (Nat.not_lt.mpr hn)]
  exact .pure n

/-! ## Forms -/

theorem flatten_singletons (bits : Bits) : (bits.map ([·])).flatten = bits := by
  rw [← List.flatMap_def, List.flatMap_singleton']

theorem eq_replicate_of_isUniform {bit : Bool} {bits : Bits}
    (h : Label.isUniform (bit :: bits) = true) :
    List.replicate (bits.length + 1) bit = bit :: bits := by
  simp only [Label.isUniform, List.all_eq_true, beq_iff_eq] at h
  rw [List.replicate_succ, List.cons.injEq]
  exact ⟨rfl, (List.eq_replicate_of_mem h).symm⟩

theorem flatten_short (m : Nat) (label : Bits) : (Label.pieces m label .short).flatten =
    [false] ++ ((List.replicate label.length true ++ [false]) ++ label) := by
  rw [Label.pieces, List.flatten_append, List.flatten_cons, List.flatten_cons,
    flatten_singletons, List.flatten_replicate_singleton, List.append_assoc, List.append_assoc]

theorem flatten_long (m : Nat) (label : Bits) : (Label.pieces m label .long).flatten =
    [true] ++ ([false] ++ (Bits.ofNat (Label.lengthWidth m) label.length ++ label)) := by
  rw [Label.pieces, List.flatten_cons, List.flatten_cons, flatten_singletons]
  rfl

theorem flatten_same (m : Nat) (bit : Bool) (bits : Bits) :
    (Label.pieces m (bit :: bits) .same).flatten =
      [true] ++ ([true] ++ ([bit] ++ Bits.ofNat (Label.lengthWidth m) (bits.length + 1))) := by
  simp [Label.pieces]

/-- **A label is read** from each of its forms, if it is no longer than the key. -/
theorem reads_form {m : Nat} {label : Bits} (hm : m < 2 ^ 64) (hl : label.length ≤ m)
    {form : Label.Form} (hu : form = .same → Label.isUniform label = true) :
    Reads (loadLabel m) rest (Label.pieces m label form).flatten [] label := by
  cases form with
  | short =>
    have hread : Reads (loadUnary m m) false _ [] _ := reads_unary hl le_rfl
    rw [Nat.sub_self, Nat.zero_add] at hread
    rw [flatten_short]
    exact (reads_bit false).bind (hread.bind (reads_each label))
  | long =>
    rw [flatten_long]
    exact (reads_bit true).bind ((reads_bit false).bind
      ((reads_length hm hl).bind (reads_each label)))
  | same =>
    rcases label with _ | ⟨bit, bits⟩
    · cases hu rfl
    · rw [flatten_same]
      have hread : Reads (loadLength m) rest _ [] _ := reads_length hm hl
      have hlabel := hread.map fun n => List.replicate n bit
      rw [List.length_cons, eq_replicate_of_isUniform (hu rfl)] at hlabel
      exact (reads_bit true).bind ((reads_bit true).bind ((reads_bit bit).bind hlabel))

end Slice

/-! ## What is written -/

namespace Builder

theorem writes_pieces (pieces : List Bits) :
    Writes (pieces.forM (append · [])) pieces.flatten := by
  induction pieces with
  | nil => exact appends_pure ⟨rfl, rfl⟩
  | cons piece pieces ih => exact (writes_append piece).bind ih

theorem writes_label (m : Nat) (label : Bits) :
    Writes (storeLabel m label) (Label.encode m label) :=
  writes_pieces _

/-- A label that is written as one repeated bit is one. -/
theorem isUniform_of_form {m : Nat} {label : Bits} (h : Label.form m label = .same) :
    Label.isUniform label = true := by
  simp only [Label.form] at h
  split at h
  · next hs => exact hs.1
  · split at h <;> cases h

/-- **A label reads back**, if it is no longer than the key. -/
theorem readsBack_label {m : Nat} {label : Bits} (hm : m < 2 ^ 64) (hl : label.length ≤ m) :
    ReadsBack (storeLabel m label) (Slice.loadLabel m) rest label :=
  (writes_label m label).readsBack (Slice.reads_form hm hl isUniform_of_form)

end Builder

end BagOfCells
