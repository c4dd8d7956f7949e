import BagOfCells.Proofs.Cell.Identity
import BagOfCells.Proofs.Cell.Path

/-!
# Pruning a tree

Subtrees of a tree are replaced by pruned branches, and every cell above them is made again. Where
only ordinary cells lie above, this changes masks, hash counts and the hashes of higher levels, but
neither the hash nor the depth at level 0; so the pruned tree is the child of a Merkle proof that
stores the hash and depth of the tree as it was. Cells are only ever refused for a depth that leaves
two bytes, which a stored depth may cause.

## Main definitions

* `Cell.prune holes`: a tree with the branches of some positions in their place
* `Cell.HolesFit holes`: the positions are below ordinary cells, each branch stands for its subtree
* `Cell.Overflows holes`: a cell above the positions, made again, has a depth that leaves two bytes
* `Cell.KeepsZero`: two made cells agree at level 0
* `Cell.proofData`: the data of the Merkle proof of a tree

## Main results

* `Cell.prune_or_overflows`: a pruned tree agrees with the tree at level 0
* `Cell.ofBytes_proof`: the Merkle proof over a cell
* `Cell.prune_keeps_zero`: both together
-/

namespace BagOfCells.Cell

open Outcome

/-! ## Replacing subtrees -/

/-- The positions below a reference, seen from there. -/
def under (i : Nat) (holes : List Nat → Option Cell) : List Nat → Option Cell :=
  fun path => holes (i :: path)

mutual
/-- A tree with the branches of some positions in their place, every cell above them made again. -/
def prune (holes : List Nat → Option Cell) : Cell → Except CellError Cell
  | mk kind bits refs _ _ =>
    match holes [] with
    | some branch => .ok branch
    | none => do
      let refs ← pruneAll holes 0 refs
      ofBytes kind (Bits.pack bits) bits.length refs

/-- Some references, from number `i` on, pruned one after the other. -/
def pruneAll (holes : List Nat → Option Cell) : (i : Nat) → List Cell →
    Except CellError (List Cell)
  | _, [] => .ok []
  | i, ref :: rest => do
    let ref ← prune (under i holes) ref
    let rest ← pruneAll holes (i + 1) rest
    return ref :: rest
end

/-- The positions lie below ordinary cells, and each branch stands for the cell it replaces. -/
def HolesFit (holes : List Nat → Option Cell) (tree : Cell) : Prop :=
  ∀ path branch cell, holes path = some branch → tree.at? path = some cell →
    tree.OrdinaryTo path ∧ branch.StandsFor cell

/-- Some cell above the positions, its references pruned, has a depth that leaves two bytes. -/
def Overflows (holes : List Nat → Option Cell) (tree : Cell) : Prop :=
  ∃ path cell refs mask, tree.at? path = some cell ∧
    pruneAll (fun rest => holes (path ++ rest)) 0 cell.refs = .ok refs ∧
    Layout.mask cell.kind cell.bits refs = .ok mask ∧ Overdeep cell.kind mask refs

/-- A made cell shows the hash and depth of another cell at level 0. -/
structure KeepsZero (cell pruned : Cell) : Prop where
  made : Made pruned
  hash : pruned.hashAt 0 = cell.hashAt 0
  depth : pruned.depthAt 0 = cell.depthAt 0

section

variable {holes : List Nat → Option Cell} {tree : Cell}

theorem prune_of_some {branch : Cell} (h : holes [] = some branch) :
    prune holes tree = .ok branch := by
  cases tree
  rw [prune, h]

theorem prune_of_none (h : holes [] = none) :
    prune holes tree =
      (pruneAll holes 0 tree.refs >>= ofBytes tree.kind tree.data tree.bits.length) := by
  cases tree
  rw [prune, h]
  rfl

theorem HolesFit.under (h : HolesFit holes tree) {i : Nat} {ref : Cell}
    (href : tree.refs[i]? = some ref) : HolesFit (under i holes) ref := by
  intro path branch cell hpath hcell
  obtain ⟨hord, hstands⟩ := h (i :: path) branch cell hpath
    (at?_cons_eq_some_iff.mpr ⟨ref, href, hcell⟩)
  exact ⟨hord.2 ref href, hstands⟩

/-- The references are pruned one by one: all of them have their property, or one overflows. -/
theorem pruneAll_cases (good : Cell → Cell → Prop) (bad : Nat → Cell → Prop) {i : Nat}
    {refs : List Cell}
    (h : ∀ k ref, refs[k]? = some ref →
      (∃ pruned, prune (under (i + k) holes) ref = .ok pruned ∧ good ref pruned) ∨
        prune (under (i + k) holes) ref = .error .overflow ∧ bad (i + k) ref) :
    (∃ pruned, pruneAll holes i refs = .ok pruned ∧ List.Forall₂ good refs pruned) ∨
      pruneAll holes i refs = .error .overflow ∧
        ∃ k ref, refs[k]? = some ref ∧ bad (i + k) ref := by
  induction refs generalizing i with
  | nil => exact .inl ⟨[], rfl, .nil⟩
  | cons ref refs ih =>
    rw [pruneAll]
    rcases h 0 ref rfl with ⟨first, hfirst, hgood⟩ | ⟨hfirst, hbad⟩
    · -- the other references are numbered from the next number on
      have hrest := ih (i := i + 1) fun k ref' href => by
        rw [Nat.add_right_comm, Nat.add_assoc]
        exact h (k + 1) ref' href
      rw [Nat.add_zero] at hfirst
      rcases hrest with ⟨rest, hrest, hall⟩ | ⟨hrest, k, ref', href, hbad⟩
      · exact .inl ⟨first :: rest, by rw [hfirst, hrest]; rfl, .cons hgood hall⟩
      · refine .inr ⟨by rw [hfirst, hrest]; rfl, k + 1, ref', href, ?_⟩
        rwa [Nat.add_right_comm, Nat.add_assoc] at hbad
    · rw [Nat.add_zero] at hfirst
      exact .inr ⟨by rw [hfirst]; rfl, 0, ref, rfl, hbad⟩

/-- A tree in which no position is replaced stays as it is. -/
theorem prune_of_forall_none (made : Made tree)
    (h : ∀ path cell, tree.at? path = some cell → holes path = none) :
    prune holes tree = .ok tree := by
  induction tree using induction_refs generalizing holes with
  | step tree ih =>
    have hrefs : _ ∨ pruneAll holes 0 tree.refs = _ ∧ _ :=
      pruneAll_cases (fun ref pruned => ref = pruned) (fun _ _ => False) fun k ref href => by
        left
        refine ⟨ref, ?_, rfl⟩
        rw [Nat.zero_add]
        apply ih ref (List.mem_of_getElem? href) (made.getElem? href)
        intro path cell hcell
        exact h (k :: path) cell (at?_cons_eq_some_iff.mpr ⟨ref, href, hcell⟩)
    rcases hrefs with ⟨pruned, hpruned, hall⟩ | ⟨-, _, _, -, hbad⟩
    · obtain rfl : tree.refs = pruned := List.forall₂_eq_eq_eq ▸ hall
      rw [prune_of_none (h [] tree rfl), hpruned]
      exact ofBytes_data made.sound
    · exact hbad.elim

end

/-! ## Level 0 of a pruned tree -/

theorem depthOver_congr {refs refs' : List Cell} {child : Nat}
    (h : refs'.map (·.depthAt child) = refs.map (·.depthAt child)) :
    depthOver refs' child = depthOver refs child := by
  have hnil : refs' = [] ↔ refs = [] := by
    rw [← List.map_eq_nil_iff (f := (·.depthAt child)), h, List.map_eq_nil_iff]
  simp only [depthOver, h, hnil]

theorem preimage_congr {first second : UInt8} {body : Bytes} {refs refs' : List Cell} {child : Nat}
    (hd : refs'.map (·.depthAt child) = refs.map (·.depthAt child))
    (hh : refs'.map (·.hashAt child) = refs.map (·.hashAt child)) :
    preimage first second body refs' child = preimage first second body refs child := by
  have hdepths (refs : List Cell) : refs.flatMap (fun ref => Bytes.ofNat 2 (ref.depthAt child)) =
      (refs.map (·.depthAt child)).flatMap (Bytes.ofNat 2) := (List.flatMap_map ..).symm
  have hhashes (refs : List Cell) : refs.flatMap (fun ref => (ref.hashAt child).bytes) =
      (refs.map (·.hashAt child)).flatMap Digest.bytes := (List.flatMap_map ..).symm
  rw [preimage, preimage, hdepths, hdepths, hhashes, hhashes, hd, hh]

/-- What is made of the parts of a cell is made of its bits. -/
theorem ofBytes_data_eq {cell : Cell} (h : cell.Sound) {refs : List Cell}
    (hr : refs.length ≤ maxRefs) :
    ofBytes cell.kind cell.data cell.bits.length refs = make cell.kind cell.bits refs := by
  unfold ofBytes
  rw [data, Bits.length_pack, Bits.take_ofBytes_pack,
    checkLimits_eq_ok_iff (u := ()).mpr ⟨h.bits_le, hr⟩,
    Layout.require_eq_ok_iff (u := ()).mpr (decide_eq_true le_rfl)]
  rfl

/-- **An ordinary cell made again** over references that agree with its own at level 0 agrees with
it at level 0. -/
theorem KeepsZero.ordinary {cell pruned : Cell} {refs : List Cell} (hs : cell.Sound)
    (hk : cell.kind = .ordinary) (hrefs : List.Forall₂ KeepsZero cell.refs refs)
    (h : make cell.kind cell.bits refs = .ok pruned) : KeepsZero cell pruned := by
  have hp := sound_of_make h
  have hpk : pruned.kind = .ordinary := (kind_make h).trans hk
  have hd : refs.map (·.depthAt 0) = cell.refs.map (·.depthAt 0) := by
    rw [← List.forall₂_eq_eq_eq, List.forall₂_map_left_iff, List.forall₂_map_right_iff]
    exact hrefs.flip.imp fun _ _ h => h.depth
  have hh : refs.map (·.hashAt 0) = cell.refs.map (·.hashAt 0) := by
    rw [← List.forall₂_eq_eq_eq, List.forall₂_map_left_iff, List.forall₂_map_right_iff]
    exact hrefs.flip.imp fun _ _ h => h.hash
  have hmade : ∀ ref ∈ pruned.refs, Made ref := by
    rw [refs_make h]
    exact ((List.forall₂_and_left ..).mp (hrefs.flip.imp fun _ _ h => ⟨h.made, h⟩)).1
  obtain ⟨hhash, hdepth⟩ := hs.zero_eq (by rw [hk]; decide)
  obtain ⟨hhash', hdepth'⟩ := hp.zero_eq (by rw [hpk]; decide)
  -- children of ordinary cells are read at the level of the cell, here 0
  refine ⟨made_iff.mpr ⟨hp, hmade⟩, ?_, ?_⟩
  · rw [hhash', hhash, message_zero, message_zero, tagged, tagged, isExotic, isExotic, hpk, hk,
      bits_make h, refs_make h, ← hrefs.length_eq]
    exact congrArg sha256 (preimage_congr hd hh)
  · rw [hdepth', hdepth, hpk, hk, refs_make h]
    exact depthOver_congr hd

/-- **A pruned tree** agrees with the tree at level 0, unless some cell above the branches has a
depth that leaves two bytes. -/
theorem prune_or_overflows {holes : List Nat → Option Cell} {tree : Cell} (made : Made tree)
    (fit : HolesFit holes tree) :
    (∃ pruned, prune holes tree = .ok pruned ∧ KeepsZero tree pruned) ∨
      prune holes tree = .error .overflow ∧ Overflows holes tree := by
  induction tree using induction_refs generalizing holes with
  | step tree ih =>
    cases hroot : holes [] with
    | some branch =>
      have hstands := (fit [] branch tree hroot rfl).2
      exact .inl ⟨branch, prune_of_some hroot,
        hstands.made, hstands.zero_eq.1, hstands.zero_eq.2⟩
    | none =>
      by_cases hk : tree.kind = .ordinary
      · have hall : _ ∨ pruneAll holes 0 tree.refs = _ ∧ _ :=
          pruneAll_cases KeepsZero (fun k ref => Overflows (under k holes) ref) fun k ref href => by
            rw [Nat.zero_add]
            exact ih ref (List.mem_of_getElem? href) (made.getElem? href) (fit.under href)
        rw [prune_of_none hroot]
        rcases hall with ⟨refs, hrefs, hkeeps⟩ | ⟨hrefs, k, ref, href, hover⟩
        · have hr : refs.length ≤ maxRefs := hkeeps.length_eq ▸ made.sound.refs_le
          have hm : Layout.mask tree.kind tree.bits refs = .ok (Layout.ordinaryMask refs) := by
            rw [hk]
            rfl
          rw [hrefs]
          change (∃ pruned, ofBytes tree.kind tree.data tree.bits.length refs = _ ∧ _) ∨
            ofBytes tree.kind tree.data tree.bits.length refs = _ ∧ _
          rw [ofBytes_data_eq made.sound hr]
          rcases make_or_overdeep made.sound.bits_le hr hm with ⟨pruned, hp, -⟩ | ⟨hp, ho⟩
          · exact .inl ⟨pruned, hp, .ordinary made.sound hk hkeeps hp⟩
          · exact .inr ⟨hp, [], tree, refs, _, rfl, hrefs, hm, ho⟩
        · -- the overflow below a reference is one below the tree
          obtain ⟨path, cell, refs, mask, hcell, hbelow⟩ := hover
          rw [Nat.zero_add] at hbelow
          refine .inr ⟨by rw [hrefs]; rfl, k :: path, cell, refs, mask, ?_, hbelow⟩
          exact at?_cons_eq_some_iff.mpr ⟨ref, href, hcell⟩
      · -- below an exotic cell nothing is replaced
        have hnone : ∀ path cell, tree.at? path = some cell → holes path = none := by
          intro path cell hcell
          cases hpath : holes path with
          | none => rfl
          | some branch =>
            cases path with
            | nil => exact hpath.symm.trans hroot
            | cons i path => exact absurd (fit (i :: path) branch cell hpath hcell).1.1 hk
        exact .inl ⟨tree, prune_of_forall_none made hnone, made, rfl, rfl⟩

/-! ## The Merkle proof -/

/-- The data of the Merkle proof of a tree: the byte of its kind, the hash and the depth of the tree
at level 0. -/
def proofData (tree : Cell) : Bytes :=
  3 :: (tree.hashAt 0).bytes ++ Bytes.ofNat 2 (tree.depthAt 0)

theorem length_proofData (tree : Cell) : (proofData tree).length = 35 := by
  simp [proofData, (tree.hashAt 0).length_bytes]

/-- The data of a proof name its kind and store the level 0 of a child that agrees with the tree. -/
theorem mask_proofData {tree child : Cell} (h : KeepsZero tree child) :
    Layout.mask .merkleProof (Bits.ofBytes (proofData tree)) [child] = .ok child.mask.lower := by
  have hl : (Bits.ofBytes (proofData tree)).length = 280 := by
    rw [Bits.length_ofBytes, length_proofData]
  rw [Layout.mask_eq_ok_iff]
  refine ⟨?_, child, rfl, rfl, hl, ?_, ?_⟩
  · rintro _ ⟨⟩
    refine ⟨by omega, ?_⟩
    rw [Bits.pack_ofBytes]
    rfl
  · have hd : (proofData tree).drop 1 = (tree.hashAt 0).bytes ++ Bytes.ofNat 2 (tree.depthAt 0) :=
      rfl
    rw [Bits.pack_ofBytes, hd, h.hash, List.take_left' (tree.hashAt 0).length_bytes]
  · have hd : (proofData tree).drop 33 = Bytes.ofNat 2 (tree.depthAt 0) := by
      rw [proofData, List.cons_append, List.drop_succ_cons,
        List.drop_left' (tree.hashAt 0).length_bytes]
    have hlt : tree.depthAt 0 < 256 ^ 2 := by
      rw [← h.depth]
      exact Nat.lt_succ_of_le (h.made.sound.depthAt_le 0)
    rw [Bits.pack_ofBytes, hd, List.take_of_length_le (Bytes.length_ofNat ..).le,
      Bytes.toNat_ofNat hlt, h.depth]

/-- **The Merkle proof** of a tree over a cell that agrees with it at level 0 is made, with the
levels of the cell one lower, unless its depth leaves two bytes. -/
theorem ofBytes_proof {tree child : Cell} (h : KeepsZero tree child) :
    (∃ proof, ofBytes .merkleProof (proofData tree) 280 [child] = .ok proof ∧
      proof.mask = child.mask.lower) ∨
    ofBytes .merkleProof (proofData tree) 280 [child] = .error .overflow ∧
      Overdeep .merkleProof child.mask.lower [child] := by
  have hl : (Bits.ofBytes (proofData tree)).length = 280 := by
    rw [Bits.length_ofBytes, length_proofData]
  have heq : ofBytes .merkleProof (proofData tree) 280 [child] =
      make .merkleProof (Bits.ofBytes (proofData tree)) [child] := by
    unfold ofBytes
    rw [length_proofData, List.take_of_length_le hl.le]
    rfl
  rw [heq]
  exact make_or_overdeep (by rw [hl]; decide) (by simp [maxRefs]) (mask_proofData h)

/-- **Pruning keeps level 0.** Let some subtrees of a tree be replaced by pruned branches that store
their hashes and depths at level 0, all of them below ordinary cells. If no depth leaves two bytes,
every cell above them is made again and the tree keeps its hash and depth at level 0. Over the
pruned tree there is then the Merkle proof with that hash and depth, of the levels of the pruned
tree one lower, again if no depth leaves two bytes. -/
theorem prune_keeps_zero {holes : List Nat → Option Cell} {tree : Cell} (made : Made tree)
    (fit : HolesFit holes tree) :
    (prune holes tree = .error .overflow ∧ Overflows holes tree) ∨
    ∃ pruned, prune holes tree = .ok pruned ∧ Made pruned ∧
      pruned.hashAt 0 = tree.hashAt 0 ∧ pruned.depthAt 0 = tree.depthAt 0 ∧
      ((ofBytes .merkleProof (proofData tree) 280 [pruned] = .error .overflow ∧
          Overdeep .merkleProof pruned.mask.lower [pruned]) ∨
        ∃ proof, ofBytes .merkleProof (proofData tree) 280 [pruned] = .ok proof ∧
          proof.mask = pruned.mask.lower) := by
  rcases prune_or_overflows made fit with ⟨pruned, hp, hkeeps⟩ | hover
  · exact .inr ⟨pruned, hp, hkeeps.made, hkeeps.hash, hkeeps.depth, (ofBytes_proof hkeeps).symm⟩
  · exact .inl hover

/-- A library cell. -/
def shelf : Cell :=
  let hash : LevelHash := ⟨sha256 (8 :: 66 :: 2 :: emptyHash), 0⟩
  .mk .library (Bits.ofBytes (2 :: emptyHash)) [] .empty ⟨hash, hash, hash, hash⟩

/-- Four bits above the empty cell and a library cell. -/
def bush : Cell :=
  let hash : LevelHash :=
    ⟨sha256 ([2, 1, 0xa8, 0, 0, 0, 0] ++ Cell.empty.hash.bytes ++ shelf.hash.bytes), 1⟩
  .mk .ordinary [true, false, true, false] [.empty, shelf] .empty ⟨hash, hash, hash, hash⟩

/-- The same with a pruned branch in the place of the empty cell. -/
def cutBush : Cell :=
  let zero : LevelHash :=
    ⟨sha256 ([2, 1, 0xa8, 0, 0, 0, 0] ++ (stub.hashAt 0).bytes ++ shelf.hash.bytes), 1⟩
  let one : LevelHash :=
    ⟨sha256 ([34, 1] ++ zero.digest.bytes ++ [0, 0, 0, 0] ++ stub.hash.bytes ++
      shelf.hash.bytes), 1⟩
  .mk .ordinary [true, false, true, false] [stub, shelf] (.ofNat 1) ⟨zero, one, one, one⟩

/-- The first reference is replaced. -/
def bushHoles (path : List Nat) : Option Cell :=
  if path = [0] then some stub else none

set_option maxRecDepth 4000 in
theorem made_shelf : Made shelf :=
  have h : Cell.ofBytes .library (2 :: emptyHash) 264 [] = .ok shelf := rfl
  .ofBytes (by simp) h

theorem made_bush : Made bush :=
  have h : Cell.ofBytes .ordinary [0xa0] 4 [.empty, shelf] = .ok bush := rfl
  .ofBytes (by simpa using ⟨made_empty, made_shelf⟩) h

theorem standsFor_stub : stub.StandsFor .empty where
  made := made_stub
  kind := rfl
  hash := by decide +kernel
  depth := by decide +kernel

theorem holesFit_bush : HolesFit bushHoles bush := by
  intro path branch cell hpath hcell
  unfold bushHoles at hpath
  split at hpath
  · next h =>
    cases hpath
    subst h
    cases hcell
    exact ⟨⟨rfl, fun _ _ => trivial⟩, standsFor_stub⟩
  · cases hpath

set_option maxRecDepth 4000 in
theorem prune_bush : prune bushHoles bush = .ok cutBush := rfl

theorem keepsZero_cutBush : KeepsZero bush cutBush := by
  rcases prune_or_overflows made_bush holesFit_bush with ⟨pruned, hp, h⟩ | ⟨h, -⟩
  · cases prune_bush.symm.trans hp
    exact h
  · cases prune_bush.symm.trans h

theorem shallow_cutBush : ¬ Overdeep .merkleProof cutBush.mask.lower [cutBush] := by
  rw [overdeep_iff]
  rintro ⟨level, hs, hd⟩
  have hl : level ≤ 0 := LevelMask.le_level_of_isSignificant hs
  rw [Nat.le_zero.mp hl] at hd
  exact absurd hd (by decide +kernel)

/-- A tree with its first subtree cut off has a Merkle proof. -/
theorem prune_keeps_zero_bush :
    prune bushHoles bush = .ok cutBush ∧ cutBush.hashAt 0 = bush.hashAt 0 ∧
      cutBush.depthAt 0 = bush.depthAt 0 ∧
      ∃ proof, ofBytes .merkleProof (proofData bush) 280 [cutBush] = .ok proof ∧
        proof.mask = .empty := by
  rcases prune_keeps_zero made_bush holesFit_bush with ⟨h, -⟩ | ⟨pruned, hp, -, hhash, hdepth, h⟩
  · cases prune_bush.symm.trans h
  · cases prune_bush.symm.trans hp
    rcases h with ⟨-, hover⟩ | ⟨proof, hproof, hmask⟩
    · exact absurd hover shallow_cutBush
    · exact ⟨prune_bush, hhash, hdepth, proof, hproof, hmask⟩

end BagOfCells.Cell
