import BagOfCells.Proofs.Cell.Collision

/-!
# The identity of cells

Cells are compared by their top hashes. That comparison is the comparison of their structure: two
cells with one top hash agree in kind, bits and mask and so do their references, one by one down to
the leaves, unless two of the messages hashed for them have one digest; and cells that agree in all
this show the same hash and depth at every level, whatever the digest is.

## Main definitions

* `Cell.Same a b`: the structure of two cells, their hashes left aside

## Main results

* `Cell.Made.eq_of_same`: made cells of one structure are one cell
* `Cell.hash_eq_iff_same`: the comparison of hashes is that of structure
-/

namespace BagOfCells.Cell

mutual
/-- Two cells have the same kind, bits and mask, and so do their references, one by one. -/
def Same : Cell → Cell → Prop
  | mk kind bits refs mask _, other =>
    kind = other.kind ∧ bits = other.bits ∧ mask = other.mask ∧ SameAll refs other.refs

/-- Two lists hold cells of the same structure, one by one. -/
def SameAll : List Cell → List Cell → Prop
  | [], [] => True
  | a :: as, b :: bs => a.Same b ∧ SameAll as bs
  | _, _ => False
end

theorem sameAll_iff {as bs : List Cell} : SameAll as bs ↔ List.Forall₂ Same as bs := by
  induction as generalizing bs with
  | nil => cases bs <;> simp [SameAll]
  | cons a as ih => cases bs <;> simp [SameAll, ih]

theorem same_iff {a b : Cell} :
    a.Same b ↔ a.kind = b.kind ∧ a.bits = b.bits ∧ a.mask = b.mask ∧
      List.Forall₂ Same a.refs b.refs := by
  rw [← sameAll_iff]
  cases a
  rfl

/-- A cell has its own structure. -/
theorem Same.refl (a : Cell) : a.Same a := by
  induction a using induction_refs with
  | step a ih => exact same_iff.mpr ⟨rfl, rfl, rfl, List.forall₂_same.mpr ih⟩

/-- **Made cells of one structure** are one cell: the hashes follow from the structure. -/
theorem Made.eq_of_same {a b : Cell} (ha : Made a) (hb : Made b) (h : a.Same b) : a = b := by
  induction a using induction_refs generalizing b with
  | step a ih =>
    obtain ⟨hk, hbits, -, hrefs⟩ := same_iff.mp h
    refine ha.sound.eq hb.sound hk hbits ?_
    -- the references are made and of one structure, so they are equal one by one
    rw [← List.forall₂_eq_eq_eq, List.forall₂_iff_get]
    obtain ⟨hl, hget⟩ := List.forall₂_iff_get.mp hrefs
    refine ⟨hl, ?_⟩
    intro i hi hi'
    have hia := List.get_mem a.refs ⟨i, hi⟩
    exact ih _ hia (ha.refs hia) (hb.refs (List.get_mem b.refs ⟨i, hi'⟩)) (hget i hi hi')

/-- **The comparison of hashes** is that of structure. Made cells with one top hash have one
structure, unless two different messages hashed for them have one digest; and cells of one structure
have the same hash and depth at every level. -/
theorem hash_eq_iff_same {a b : Cell} (ha : Made a) (hb : Made b) :
    (a.hash = b.hash → a.Same b ∨ Collision [a, b]) ∧
      (a.Same b →
        ∀ level, a.hashAt level = b.hashAt level ∧ a.depthAt level = b.depthAt level) := by
  constructor
  · intro h
    rcases collision_or_free [a, b] with hc | free
    · exact .inr hc
    · left
      have made : ∀ root ∈ [a, b], Made root := by simpa using ⟨ha, hb⟩
      have heq : a = b :=
        eq_of_hash_eq made free (reachable_self (by simp)) (reachable_self (by simp)) h
      exact heq ▸ Same.refl a
  · intro h level
    obtain rfl := ha.eq_of_same hb h
    exact ⟨rfl, rfl⟩

/-- The hash of the empty cell. -/
def emptyHash : Bytes :=
  [0x96, 0xa2, 0x96, 0xd2, 0x24, 0xf2, 0x85, 0xc6, 0x7b, 0xee, 0x93, 0xc3, 0x0f, 0x8a, 0x30, 0x91,
    0x57, 0xf0, 0xda, 0xa3, 0x5d, 0xc5, 0xb8, 0x7e, 0x41, 0x0b, 0x78, 0x63, 0x0a, 0x09, 0xcf, 0xc7]

/-- The data of a pruned branch of level 1 that stores the hash and depth of the empty cell. -/
def stubData : Bytes := [1, 1] ++ emptyHash ++ [0, 0]

/-- A pruned branch in the place of the empty cell. -/
def stub : Cell :=
  let own : LevelHash := ⟨sha256 (40 :: 72 :: stubData), 0⟩
  .mk .prunedBranch (Bits.ofBytes stubData) [] (.ofNat 1) ⟨⟨.ofBytes emptyHash, 0⟩, own, own, own⟩

-- the 288 bits are gone through one by one
set_option maxRecDepth 4000 in
theorem made_stub : Made stub :=
  have h : Cell.ofBytes .prunedBranch stubData 288 [] = .ok stub := rfl
  .ofBytes (by simp) h

/-- A pruned branch is told from the cell in whose place it is by the top hash, though not by the
hash at level 0. -/
theorem hash_eq_iff_same_stub :
    Made stub ∧ Made .empty ∧ stub.hashAt 0 = Cell.empty.hashAt 0 ∧
      (stub.hash = Cell.empty.hash → stub.Same .empty ∨ Collision [stub, .empty]) :=
  ⟨made_stub, made_empty, by decide +kernel, (hash_eq_iff_same made_stub made_empty).1⟩

end BagOfCells.Cell
