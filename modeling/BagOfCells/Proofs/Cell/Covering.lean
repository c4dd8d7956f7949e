import BagOfCells.Proofs.Cell.Height
import BagOfCells.Proofs.Cell.Path
import Mathlib.Data.Nat.Bitwise

/-!
# Pruned branches seen through Merkle cells

The level mask of a cell is computed from its references alone, by a rule for each kind. All the
rules do the same: a bit of the mask is set when some reference has it set, in a Merkle cell the bit
above it. Followed down to the pruned branches, which alone store a mask, this gives the mask of any
tree: the bits that the pruned branches show through the Merkle cells above them, of which each one
takes the lowest bit away.

## Main definitions

* `Cell.along path`: the cells that a path passes, both ends included
* `Cell.merkles path`: how many of them are Merkle cells
* `Cell.storedMask`: the mask in the data of a pruned branch
* `Cell.Shows i`: some pruned branch below shows bit `i` through the Merkle cells above it

## Main results

* `Layout.Suits.testBit_iff`: one rule for the masks of all kinds but the pruned branch
* `Cell.Made.testBit_mask`: the mask of a made cell has the bits that its pruned branches show
* `Cell.isGreatest_height`: the height of a cell is the length of its longest path
* `Cell.ofBytes_covering`: both for a cell made of its parts, and when it has no levels
-/

namespace BagOfCells

namespace LevelMask

/-! ## Masks as numbers -/

theorem testBit_union (a b : LevelMask) (i : Nat) :
    (a.union b).toNat.testBit i = (a.toNat.testBit i || b.toNat.testBit i) := by
  rw [union, toNat, BitVec.toNat_or, Nat.testBit_or, toNat, toNat]

theorem testBit_lower (mask : LevelMask) (i : Nat) :
    mask.lower.toNat.testBit i = mask.toNat.testBit (i + 1) := by
  rw [lower, toNat, BitVec.toNat_ushiftRight, Nat.testBit_shiftRight, toNat, Nat.add_comm]

/-- The number of a mask takes as many bits as the mask has levels. -/
theorem lt_two_pow_iff (mask : LevelMask) (n : Nat) : mask.toNat < 2 ^ n ↔ mask.level ≤ n := by
  rcases Nat.lt_or_ge n 3 with h | h
  · obtain ⟨bits⟩ := mask
    interval_cases n <;> revert bits <;> decide
  · have hle : 2 ^ 3 ≤ 2 ^ n := Nat.pow_le_pow_right (by omega) h
    exact iff_of_true (mask.toNat_lt.trans_le hle) (mask.level_le.trans h)

theorem shiftRight_eq_zero_iff (mask : LevelMask) (n : Nat) :
    mask.toNat >>> n = 0 ↔ mask.level ≤ n := by
  rw [← lt_two_pow_iff, Nat.shiftRight_eq_div_pow, Nat.div_eq_zero_iff]
  simp

end LevelMask

/-! ## One rule for all kinds -/

namespace Layout

variable {bits : Bits} {refs : List Cell} {mask : LevelMask}

theorem testBit_foldl_union (mask : LevelMask) (i : Nat) :
    (refs.foldl (fun mask ref => mask.union ref.mask) mask).toNat.testBit i = true ↔
      mask.toNat.testBit i = true ∨ ∃ ref ∈ refs, ref.mask.toNat.testBit i = true := by
  induction refs generalizing mask with
  | nil => simp
  | cons ref refs ih =>
    rw [List.foldl_cons, ih, LevelMask.testBit_union, Bool.or_eq_true, List.exists_mem_cons_iff,
      or_assoc]

/-- **The mask of a cell** that is no pruned branch has the bits of its references, in a Merkle cell
one lower. -/
theorem Suits.testBit_iff {kind : CellKind} (h : Suits bits refs mask kind)
    (hk : kind ≠ .prunedBranch) (i : Nat) :
    mask.toNat.testBit i = true ↔
      ∃ ref ∈ refs, ref.mask.toNat.testBit (Cell.childLevel kind i) = true := by
  cases kind with
  | ordinary =>
    obtain rfl : mask = ordinaryMask refs := h
    rw [ordinaryMask, testBit_foldl_union]
    simp [LevelMask.empty, LevelMask.toNat, Cell.childLevel, CellKind.isMerkle]
  | prunedBranch => exact absurd rfl hk
  | library =>
    obtain ⟨rfl, rfl, -⟩ := h
    simp [LevelMask.empty, LevelMask.toNat]
  | merkleProof =>
    obtain ⟨child, rfl, rfl, -⟩ := h
    rw [LevelMask.testBit_lower]
    simp [Cell.childLevel, CellKind.isMerkle]
  | merkleUpdate =>
    obtain ⟨before, after, rfl, rfl, -⟩ := h
    rw [LevelMask.testBit_lower, LevelMask.testBit_union]
    simp [Cell.childLevel, CellKind.isMerkle]

end Layout

namespace Cell

/-! ## Paths -/

/-- The cells that a path of reference numbers passes, both ends included. -/
def along : (path : List Nat) → Cell → List Cell
  | [], cell => [cell]
  | i :: path, cell => cell :: (cell.refs[i]?.elim [] (along path))

/-- How many Merkle cells a path passes, both ends included. -/
def merkles (path : List Nat) (cell : Cell) : Nat :=
  (cell.along path).countP (·.kind.isMerkle)

/-- The level mask that a pruned branch stores, as a number: the second byte of its data. -/
def storedMask (branch : Cell) : Nat := (branch.data.getD 1 0).toNat

/-- Some pruned branch below the cell shows a bit through the Merkle cells above it. -/
def Shows (cell : Cell) (i : Nat) : Prop :=
  ∃ path branch, cell.at? path = some branch ∧ branch.kind = .prunedBranch ∧
    (branch.storedMask >>> cell.merkles path).testBit i = true

variable {cell branch : Cell}

theorem merkles_cons {i : Nat} {ref : Cell} (path : List Nat) (href : cell.refs[i]? = some ref) :
    cell.merkles (i :: path) = ref.merkles path + if cell.kind.isMerkle then 1 else 0 := by
  rw [merkles, along, href, List.countP_cons, merkles, Option.elim_some]

/-- What a branch shows above one more cell, the cell being Merkle or not. -/
theorem testBit_stored_cons {i j : Nat} {ref : Cell} (path : List Nat)
    (href : cell.refs[j]? = some ref) :
    (branch.storedMask >>> cell.merkles (j :: path)).testBit i =
      (branch.storedMask >>> ref.merkles path).testBit (childLevel cell.kind i) := by
  rw [Nat.testBit_shiftRight, Nat.testBit_shiftRight, merkles_cons path href, childLevel]
  congr 1
  split <;> omega

theorem at?_of_refs_eq_nil (h : cell.refs = []) {path : List Nat} {found : Cell} :
    cell.at? path = some found ↔ path = [] ∧ found = cell := by
  cases path with
  | nil => simp [at?, eq_comm]
  | cons i path => simp [at?, h]

/-- A pruned branch shows what it stores. -/
theorem shows_of_prunedBranch (hk : cell.kind = .prunedBranch) (hr : cell.refs = []) (i : Nat) :
    cell.Shows i ↔ cell.storedMask.testBit i = true := by
  have hm : cell.merkles [] = 0 := by simp [merkles, along, hk, CellKind.isMerkle]
  constructor
  · rintro ⟨path, branch, hpath, -, hbit⟩
    obtain ⟨rfl, rfl⟩ := (at?_of_refs_eq_nil hr).mp hpath
    rwa [hm, Nat.shiftRight_zero] at hbit
  · intro hbit
    refine ⟨[], cell, rfl, hk, ?_⟩
    rwa [hm, Nat.shiftRight_zero]

/-- Any other cell shows what its references show, a Merkle cell the bit above. -/
theorem shows_iff (hk : cell.kind ≠ .prunedBranch) (i : Nat) :
    cell.Shows i ↔ ∃ ref ∈ cell.refs, ref.Shows (childLevel cell.kind i) := by
  constructor
  · rintro ⟨path, branch, hpath, hb, hbit⟩
    cases path with
    | nil =>
      cases hpath
      exact absurd hb hk
    | cons j path =>
      obtain ⟨ref, href, hpath⟩ := at?_cons_eq_some_iff.mp hpath
      rw [testBit_stored_cons path href] at hbit
      exact ⟨ref, List.mem_of_getElem? href, path, branch, hpath, hb, hbit⟩
  · rintro ⟨ref, href, path, branch, hpath, hb, hbit⟩
    obtain ⟨j, href⟩ := List.getElem?_of_mem href
    rw [← testBit_stored_cons path href] at hbit
    exact ⟨j :: path, branch, at?_cons_eq_some_iff.mpr ⟨ref, href, hpath⟩, hb, hbit⟩

/-! ## The mask of a tree -/

/-- A pruned branch has no references and the mask it stores. -/
theorem Sound.storedMask_eq (h : cell.Sound) (hk : cell.kind = .prunedBranch) :
    cell.refs = [] ∧ cell.storedMask = cell.mask.toNat := by
  have hs := h.suits
  rw [hk] at hs
  obtain ⟨hr, -, -, hbyte⟩ := hs
  refine ⟨hr, ?_⟩
  have hlt : cell.mask.toNat < 256 := cell.mask.toNat_lt.trans (by decide)
  rw [storedMask, data, List.getD_eq_getElem?_getD, hbyte, Option.getD_some,
    UInt8.toNat_ofNat_of_lt' hlt]

/-- **The mask of a made cell** has the bits that the pruned branches below it show through the
Merkle cells above them. -/
theorem Made.testBit_mask (h : Made cell) (i : Nat) :
    cell.mask.toNat.testBit i = true ↔ cell.Shows i := by
  induction cell using induction_refs generalizing i with
  | step cell ih =>
    by_cases hk : cell.kind = .prunedBranch
    · obtain ⟨hr, hstored⟩ := h.sound.storedMask_eq hk
      rw [shows_of_prunedBranch hk hr, hstored]
    · rw [h.sound.suits.testBit_iff hk, shows_iff hk]
      refine exists_congr fun ref => and_congr_right fun href => ?_
      exact ih ref href (h.refs href) _

theorem Made.at? {path : List Nat} {found : Cell} (h : Made cell)
    (hpath : cell.at? path = some found) : Made found := by
  induction path generalizing cell with
  | nil =>
    cases hpath
    exact h
  | cons i path ih =>
    obtain ⟨ref, href, hpath⟩ := at?_cons_eq_some_iff.mp hpath
    exact ih (h.getElem? href) hpath

/-- A cell has no levels exactly when every pruned branch below it has at most as many levels as
there are Merkle cells above it. -/
theorem Made.level_eq_zero_iff (h : Made cell) :
    cell.level = 0 ↔ ∀ path branch, cell.at? path = some branch → branch.kind = .prunedBranch →
      branch.level ≤ cell.merkles path := by
  have hzero : cell.level = 0 ↔ ∀ i, ¬ cell.Shows i := by
    rw [level, ← Nat.le_zero, ← LevelMask.shiftRight_eq_zero_iff, Nat.shiftRight_zero]
    constructor
    · intro hmask i hshows
      rw [← h.testBit_mask, hmask, Nat.zero_testBit] at hshows
      cases hshows
    · intro hnone
      apply Nat.zero_of_testBit_eq_false
      intro i
      rw [← Bool.not_eq_true, h.testBit_mask]
      exact hnone i
  have hcovered {path branch} (hpath : cell.at? path = some branch)
      (hk : branch.kind = .prunedBranch) :
      branch.level ≤ cell.merkles path ↔ branch.storedMask >>> cell.merkles path = 0 := by
    rw [((h.at? hpath).sound.storedMask_eq hk).2, LevelMask.shiftRight_eq_zero_iff, level]
  rw [hzero]
  constructor
  · intro hnone path branch hpath hk
    rw [hcovered hpath hk]
    apply Nat.zero_of_testBit_eq_false
    intro i
    rw [← Bool.not_eq_true]
    exact fun hbit => hnone i ⟨path, branch, hpath, hk, hbit⟩
  · rintro hall i ⟨path, branch, hpath, hk, hbit⟩
    rw [(hcovered hpath hk).mp (hall path branch hpath hk), Nat.zero_testBit] at hbit
    cases hbit

/-! ## The longest path -/

theorem height_le_heightOver {ref : Cell} {refs : List Cell} (h : ref ∈ refs) :
    ref.height + 1 ≤ heightOver refs := by
  induction refs with
  | nil => cases h
  | cons next refs ih =>
    rw [heightOver]
    rcases List.mem_cons.mp h with rfl | h
    · exact le_max_left ..
    · exact (ih h).trans (le_max_right ..)

theorem exists_height_eq {refs : List Cell} (h : refs ≠ []) :
    ∃ ref ∈ refs, heightOver refs = ref.height + 1 := by
  induction refs with
  | nil => exact absurd rfl h
  | cons next refs ih =>
    rw [heightOver]
    rcases Nat.le_total (heightOver refs) (next.height + 1) with hle | hle
    · exact ⟨next, List.mem_cons_self, max_eq_left hle⟩
    · -- no reference is as high as the first one, and there are others
      have hne : refs ≠ [] := by
        rintro rfl
        rw [heightOver] at hle
        omega
      obtain ⟨ref, href, heq⟩ := ih hne
      exact ⟨ref, List.mem_cons_of_mem _ href, (max_eq_right hle).trans heq⟩

theorem length_le_height {path : List Nat} {found : Cell} (h : cell.at? path = some found) :
    path.length ≤ cell.height := by
  induction path generalizing cell with
  | nil => exact Nat.zero_le _
  | cons i path ih =>
    obtain ⟨ref, href, hpath⟩ := at?_cons_eq_some_iff.mp h
    rw [height_eq, List.length_cons]
    exact (Nat.succ_le_succ (ih hpath)).trans (height_le_heightOver (List.mem_of_getElem? href))

theorem exists_path_length_eq (cell : Cell) :
    ∃ path found, cell.at? path = some found ∧ path.length = cell.height := by
  induction cell using induction_refs with
  | step cell ih =>
    rw [height_eq]
    by_cases hr : cell.refs = []
    · exact ⟨[], cell, rfl, by rw [hr]; rfl⟩
    · obtain ⟨ref, href, heq⟩ := exists_height_eq hr
      obtain ⟨path, found, hpath, hlen⟩ := ih ref href
      obtain ⟨i, href⟩ := List.getElem?_of_mem href
      exact ⟨i :: path, found, at?_cons_eq_some_iff.mpr ⟨ref, href, hpath⟩, by
        rw [List.length_cons, hlen, heq]⟩

/-- **The height** of a cell is the length of its longest path. -/
theorem isGreatest_height (cell : Cell) :
    IsGreatest {n | ∃ path found, cell.at? path = some found ∧ path.length = n} cell.height := by
  refine ⟨exists_path_length_eq cell, ?_⟩
  rintro _ ⟨path, found, hpath, rfl⟩
  exact length_le_height hpath

/-- **Merkle cells cover pruned branches.** The mask of a cell made of its parts is the bitwise or,
over all paths to a pruned branch, of the mask the branch stores, shifted right once for each Merkle
cell on the path. From its own level on the cell shows one hash and one depth at all levels, the
depth being the length of its longest path. It has no levels exactly when each pruned branch below
it has at most as many levels as Merkle cells above it. -/
theorem ofBytes_covering {kind : CellKind} {data : Bytes} {count : Nat} {refs : List Cell}
    (made : ∀ ref ∈ refs, Made ref) (h : ofBytes kind data count refs = .ok cell) :
    (∀ i, cell.mask.toNat.testBit i = true ↔
      ∃ path branch, cell.at? path = some branch ∧ branch.kind = .prunedBranch ∧
        (branch.storedMask >>> cell.merkles path).testBit i = true) ∧
    (∀ level, cell.level ≤ level →
      cell.hashAt level = cell.hash ∧ cell.depthAt level = cell.depth) ∧
    IsGreatest {n | ∃ path found, cell.at? path = some found ∧ path.length = n} cell.depth ∧
    (cell.level = 0 ↔ ∀ path branch, cell.at? path = some branch → branch.kind = .prunedBranch →
      branch.level ≤ cell.merkles path) := by
  have hmade : Made cell := .ofBytes made h
  refine ⟨hmade.testBit_mask, fun level hl => hmade.sound.get_top hl, ?_, hmade.level_eq_zero_iff⟩
  rw [hmade.depth_eq]
  exact isGreatest_height cell

/-- A pruned branch that stores the levels 1 and 2. -/
def doubleBranch : Cell :=
  let data := 1 :: 3 :: List.replicate 68 0
  let stored : LevelHash := ⟨.ofBytes (List.replicate 32 0), 0⟩
  let own : LevelHash := ⟨sha256 (104 :: 140 :: data), 0⟩
  .mk .prunedBranch (Bits.ofBytes data) [] (.ofNat 3) ⟨stored, stored, own, own⟩

/-- A Merkle proof over it, which covers one of the levels. -/
def doubleProof : Cell :=
  let data := 3 :: List.replicate 34 0
  let zero : LevelHash := ⟨sha256 (9 :: 70 :: data ++ [0, 0] ++ List.replicate 32 0), 1⟩
  let one : LevelHash :=
    ⟨sha256 (41 :: 70 :: zero.digest.bytes ++ [0, 0] ++ doubleBranch.hash.bytes), 1⟩
  .mk .merkleProof (Bits.ofBytes data) [doubleBranch] (.ofNat 1) ⟨zero, one, one, one⟩

-- the bits are gone through one by one
set_option maxRecDepth 8000 in
theorem made_doubleBranch : Made doubleBranch :=
  have h : Cell.ofBytes .prunedBranch (1 :: 3 :: List.replicate 68 0) 560 [] = .ok doubleBranch :=
    rfl
  .ofBytes (by simp) h

set_option maxRecDepth 4000 in
theorem ofBytes_doubleProof :
    Cell.ofBytes .merkleProof (3 :: List.replicate 34 0) 280 [doubleBranch] = .ok doubleProof :=
  rfl

/-- One of the two levels is left above the proof. -/
theorem ofBytes_covering_doubleProof :
    Cell.ofBytes .merkleProof (3 :: List.replicate 34 0) 280 [doubleBranch] = .ok doubleProof ∧
      (∀ i, doubleProof.Shows i ↔ i = 0) ∧ doubleProof.hashAt 2 = doubleProof.hash ∧
      (∃ path branch, doubleProof.at? path = some branch ∧ branch.kind = .prunedBranch ∧
        doubleProof.merkles path < branch.level) := by
  have made : ∀ ref ∈ [doubleBranch], Made ref := by simpa using made_doubleBranch
  obtain ⟨hmask, htop, -, hlevel⟩ := ofBytes_covering made ofBytes_doubleProof
  refine ⟨ofBytes_doubleProof, fun i => ?_, (htop 2 (by decide)).1, [0], doubleBranch, rfl, rfl, ?_⟩
  · rw [Shows, ← hmask i]
    exact Nat.testBit_one_eq_true_iff_self_eq_zero
  · decide

end Cell

end BagOfCells
