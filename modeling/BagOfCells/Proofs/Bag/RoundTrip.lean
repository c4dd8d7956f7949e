import BagOfCells.Proofs.Bag.Grammar
import BagOfCells.Proofs.Cell.Collision

/-!
# Round trips

What was written is read back: the records give the cells again, from the last to the first, and the
roots are found at their numbers. This holds of every list of roots that the limits admit, as long
as the hashes tell the cells below them apart, with one exception. The roots are listed as they are
given while the cells are listed once, so a list that names more roots than there are cells is
written with a header that is out of the grammar, which the decoder refuses.

## Main results

* `Bag.assemble_written`: the records give the cells
* `Bag.decode_encode`: roots with different hashes come back
* `Bag.encode_conforms_iff`: a written bag is in the grammar, and roots come back, unless the roots
  outnumber the cells
-/

namespace BagOfCells.Bag

open Cell Outcome

/-! ## Cells from records -/

section

variable {roots : List Cell} (fits : Written.Fits roots)

include fits

/-- The cell of a record, once the later cells are there. -/
theorem recordCell_written {config : Config} {front later : List Cell} {cell : Cell}
    (ho : order roots = front ++ cell :: later) (hd : cell.depth ≤ config.maxDepth) :
    recordCell config front.length (Written.recordContents roots cell) later = .ok cell := by
  have hcell : cell ∈ reachable roots := (mem_order_iff fits.inj).mp (by simp [ho])
  have hs := fits.sound cell ((mem_order_iff fits.inj).mpr hcell)
  have hlater (ref : Cell) (href : ref ∈ cell.refs) :
      laterCell later front.length (place (order roots) ref) = .ok ref := by
    have hlt := lt_place fits.inj ho href
    have hget := getElem?_place fits.inj (reachable_ref hcell href)
    rw [laterCell, if_neg (by omega), Checked.item_eq_ok_iff, ← hget]
    -- a number behind that of the cell is a place among the later cells
    obtain ⟨k, hk⟩ : ∃ k, place (order roots) ref = front.length + 1 + k :=
      ⟨_, (Nat.add_sub_cancel' hlt).symm⟩
    rw [hk, ho, List.getElem?_append_right (by omega),
      show front.length + 1 + k - front.length = k + 1 by omega, List.getElem?_cons_succ]
    exact congrArg _ (by omega)
  have hrefs : (cell.refs.map (place (order roots))).mapM (laterCell later front.length) =
      .ok cell.refs := by
    rw [mapM_eq_ok_iff, List.forall₂_map_left_iff, List.forall₂_same]
    exact hlater
  have hmake : Cell.ofBytes cell.kind cell.tagged cell.bits.length cell.refs = .ok cell := by
    rw [ofBytes_eq_ok_iff, length_tagged, tagged, Bits.take_ofBytes_complete]
    exact ⟨le_rfl, make_of_sound hs⟩
  -- no later cell has the hash of this one, so none is taken for it
  have hshare : share later cell = cell := by
    have hnone : later.find? (· == cell) = none := by
      rw [List.find?_eq_none]
      intro x hx heq
      have hord := (ordered_order fits.inj).drop front.length
      rw [ho, List.drop_left] at hord
      have hxr : x ∈ reachable roots := (mem_order_iff fits.inj).mp (by simp [ho, hx])
      exact hord.1 (fits.inj hxr hcell (beq_iff.mp heq) ▸ hx)
    rw [share, hnone, Option.getD_none]
  unfold recordCell Written.recordContents
  simp only [hrefs, hmake, hshare, bind, Except.bind, pure, Except.pure, ne_eq, not_true,
    if_false, Nat.not_lt.mpr hd]

/-- **The records** give the cells. -/
theorem assemble_written {config : Config} (hd : ∀ cell ∈ order roots, cell.depth ≤ config.maxDepth)
    {front later : List Cell} (ho : order roots = front ++ later) :
    assemble config front.length (later.map (Written.recordContents roots)) = .ok later := by
  induction later generalizing front with
  | nil => rfl
  | cons cell later ih =>
    have hrest := ih (show order roots = (front ++ [cell]) ++ later by
      rw [ho, List.append_assoc, List.singleton_append])
    rw [List.length_append, List.length_singleton] at hrest
    have hcell := recordCell_written fits ho (hd cell (by simp [ho]))
    rw [List.map_cons, assemble, hrest]
    simp only [hcell, bind, Except.bind, pure, Except.pure]

/-- **A written bag** gives its roots, if there are as many cells as roots. -/
theorem decode_written {config : Config} {flags : Flags} (hne : roots ≠ [])
    (hle : roots.length ≤ (order roots).length) (hc : (order roots).length ≤ config.maxCells)
    (hr : roots.length ≤ config.maxRoots)
    (hd : ∀ cell ∈ order roots, cell.depth ≤ config.maxDepth) :
    decode config (Written.bag roots flags) = .ok roots := by
  have hroots : (roots.map (place (order roots))).mapM (Checked.item (order roots)) =
      .ok roots := by
    rw [mapM_eq_ok_iff, List.forall₂_map_left_iff, List.forall₂_same]
    intro root hroot
    exact Checked.item_eq_ok_iff.mpr (getElem?_place fits.inj (reachable_self hroot))
  have hcells : assemble config 0 ((order roots).map (Written.recordContents roots)) =
      .ok (order roots) := assemble_written fits hd (List.nil_append _).symm
  unfold decode
  rw [readBag_written fits flags hne hle hc hr]
  simp only [hcells, bind, Except.bind]
  exact hroots

end

/-! ## Roots that come back -/

section

variable {roots : List Cell}

/-- Made cells that their hashes tell apart can be written. -/
theorem fits_of_made (made : ∀ root ∈ roots, Made root)
    (inj : Set.InjOn Cell.hash (reachable roots)) (hn : (reachable roots).ncard < 2 ^ 32) :
    Written.Fits roots where
  inj := inj
  sound cell hcell := (made_of_reachable made ((mem_order_iff inj).mp hcell)).sound
  cells_lt := by
    rw [length_order inj]
    exact lt_of_lt_of_eq hn (by norm_num)

/-- Every cell below some roots is at most as deep as the deepest root. -/
theorem depth_le_of_roots (made : ∀ root ∈ roots, Made root)
    (inj : Set.InjOn Cell.hash (reachable roots)) {limit : Nat}
    (h : ∀ root ∈ roots, root.depth ≤ limit) : ∀ cell ∈ order roots, cell.depth ≤ limit := by
  intro cell hcell
  obtain ⟨root, hroot, hr⟩ := (mem_order_iff inj).mp hcell
  exact ((made root hroot).depth_le hr).trans (h root hroot)

/-- Roots with different hashes do not outnumber the cells. -/
theorem length_le_of_distinct (inj : Set.InjOn Cell.hash (reachable roots))
    (distinct : roots.Pairwise fun a b => a.hash ≠ b.hash) :
    roots.length ≤ (order roots).length := by
  have hnd : roots.Nodup := distinct.imp fun h heq => h (congrArg Cell.hash heq)
  have hsub : roots ⊆ order roots := by
    intro root hroot
    exact (mem_order_iff inj).mpr (reachable_self hroot)
  exact (hnd.subperm hsub).length_le

/-- **The round trip.** Roots with different hashes are written, with or without index and checksum,
and read back as they were, under every configuration that admits their count, the count of the
cells below them and their depths. -/
theorem decode_encode (config : Config) (flags : Flags) (roots : List Cell)
    (made : ∀ root ∈ roots, Made root) (nonempty : roots ≠ [])
    (distinct : roots.Pairwise fun a b => a.hash ≠ b.hash) (free : CollisionFree roots)
    (roots_le : roots.length ≤ config.maxRoots)
    (cells_le : (reachable roots).ncard ≤ config.maxCells)
    (cells_lt : (reachable roots).ncard < 2 ^ 32)
    (depth_le : ∀ root ∈ roots, root.depth ≤ config.maxDepth) :
    ∃ bytes, encode roots flags = .ok bytes ∧ decode config bytes = .ok roots := by
  have inj : Set.InjOn Cell.hash (reachable roots) := by
    intro a ha b hb
    exact eq_of_hash_eq made free ha hb
  refine ⟨_, encode_eq inj nonempty, ?_⟩
  exact decode_written (fits_of_made made inj cells_lt) nonempty
    (length_le_of_distinct inj distinct) (length_order inj ▸ cells_le) roots_le
    (depth_le_of_roots made inj depth_le)

/-- A cell of four bits above the empty cell. -/
def twig : Cell :=
  let hash : LevelHash := ⟨sha256 ([1, 1, 0xa8, 0, 0] ++ Cell.empty.hash.bytes), 1⟩
  .mk .ordinary [true, false, true, false] [.empty] .empty ⟨hash, hash, hash, hash⟩

theorem made_twig : Made twig :=
  have h : Cell.ofBytes .ordinary [0xa0] 4 [.empty] = .ok twig := rfl
  .ofBytes (by simpa using made_empty) h

theorem reachable_twig : reachable [twig] = {twig, .empty} := by
  rw [reachable_refs, show twig.refs = [.empty] from rfl, reachable_empty]

theorem reachable_twig_empty : reachable [twig, .empty] = {twig, .empty} := by
  have hroots : reachable [twig, .empty] = reachable [twig] ∪ reachable [Cell.empty] := by
    ext cell
    simp [reachable]
  rw [hroots, reachable_twig, reachable_empty, Set.union_eq_left]
  simp

theorem twig_ne_empty : sha256 (twig.message 0) ≠ sha256 (Cell.empty.message 0) := by
  decide +kernel

theorem ncard_twig : ({twig, .empty} : Set Cell).ncard = 2 := by
  rw [Set.ncard_pair]
  intro h
  exact twig_ne_empty (h ▸ rfl)

theorem collisionFree_twig {roots : List Cell} (hr : reachable roots = {twig, .empty}) :
    CollisionFree roots := by
  -- both masks are empty, so each cell has one message
  have hmsg : ∀ m ∈ hashed roots, m = twig.message 0 ∨ m = Cell.empty.message 0 := by
    rintro _ ⟨cell, hcell, level, hs, -, rfl⟩
    have hl := LevelMask.le_level_of_isSignificant hs
    rw [hr] at hcell
    rcases hcell with rfl | rfl
    · exact .inl (congrArg _ (Nat.le_zero.mp hl))
    · exact .inr (congrArg _ (Nat.le_zero.mp hl))
  intro a ha b hb h
  rcases hmsg a ha with rfl | rfl <;> rcases hmsg b hb with rfl | rfl
  · rfl
  · exact absurd h twig_ne_empty
  · exact absurd h.symm twig_ne_empty
  · rfl

/-- A root and a root below it come back, with index and checksum. -/
theorem decode_encode_twig :
    ∃ bytes, encode [twig, .empty] ⟨true, true⟩ = .ok bytes ∧
      decode {} bytes = .ok [twig, .empty] := by
  have hcells : (reachable [twig, .empty]).ncard = 2 := by rw [reachable_twig_empty, ncard_twig]
  refine decode_encode {} ⟨true, true⟩ [twig, .empty] ?_ (by simp) ?_
    (collisionFree_twig reachable_twig_empty) (by decide) (by rw [hcells]; decide)
    (by rw [hcells]; decide) ?_
  · simpa using ⟨made_twig, made_empty⟩
  · exact List.pairwise_pair.mpr (by decide +kernel)
  · have ht : twig.depth = 1 := rfl
    have he : Cell.empty.depth = 0 := rfl
    simp [ht, he]

/-- A written bag whose roots outnumber its cells is refused. -/
theorem decode_written_of_lt (fits : Written.Fits roots) {config : Config} {flags : Flags}
    (hne : roots ≠ []) (hlt : (order roots).length < roots.length)
    (hw : roots.length < 256 ^ Written.refSize roots)
    (hc : (order roots).length ≤ config.maxCells) (hr : roots.length ≤ config.maxRoots) :
    decode config (Written.bag roots flags) =
      .error (.bag (.countsExceed roots.length 0 (order roots).length)) := by
  have hn : (order roots).length ≠ 0 := by
    obtain ⟨root, hroot⟩ := List.exists_mem_of_ne_nil roots hne
    have := (mem_order_iff fits.inj).mpr (reachable_self hroot)
    exact (List.length_pos_of_mem this).ne'
  -- the reader comes no further than the counts, whatever follows them
  obtain ⟨rest, hbag⟩ := Written.bag_eq roots flags
  have hfails : Fails (readBag config (Written.bag roots flags)) _ _ :=
    (fails_header fits flags hlt hn hw hc hr).bind
  obtain ⟨after, h⟩ := hfails
    (Bytes.ofNat (Written.offsetSize roots) (Written.total roots) ++ rest) 0 (by
      have := Written.refSize_le fits.cells_lt
      simp [Written.preamble, Bits.bound_eq]
      omega)
  have heq : readBag config (Written.bag roots flags) ⟨Written.bag roots flags, 0⟩ =
      .error (.bag (.countsExceed roots.length 0 (order roots).length)) after := by
    rw [← h, hbag]
    simp [Written.preamble]
  unfold decode
  rw [heq]

/-- **Lists of roots.** At most sixteen roots within the default limits are always written, and
their count is in the header. The bag is in the grammar, and is read back as it was, exactly when
the roots do not outnumber the cells below them; a bag of more roots than cells is refused. -/
theorem encode_conforms_iff (flags : Flags) (roots : List Cell)
    (made : ∀ root ∈ roots, Made root) (nonempty : roots ≠ []) (roots_le : roots.length ≤ 16)
    (inj : Set.InjOn Cell.hash (reachable roots))
    (cells_le : (reachable roots).ncard ≤ 1048576)
    (depth_le : ∀ root ∈ roots, root.depth ≤ 1024) :
    ∃ bytes, encode roots flags = .ok bytes ∧ rootCount bytes = roots.length ∧
      (Conforms bytes ↔ roots.length ≤ (reachable roots).ncard) ∧
      (roots.length ≤ (reachable roots).ncard → decode {} bytes = .ok roots) ∧
      ((reachable roots).ncard < roots.length → decode {} bytes =
        .error (.bag (.countsExceed roots.length 0 (reachable roots).ncard))) := by
  have fits := fits_of_made made inj (by omega)
  have hw : roots.length < 256 ^ Written.refSize roots :=
    calc roots.length < 256 ^ 1 := by omega
      _ ≤ 256 ^ Written.refSize roots := Nat.pow_le_pow_right (by omega) (bytesNeeded_pos _)
  rw [← length_order inj] at cells_le ⊢
  refine ⟨_, encode_eq inj nonempty, rootCount_written fits hw,
    conforms_written_iff fits nonempty hw, ?_, ?_⟩
  · intro hle
    exact decode_written fits nonempty hle cells_le roots_le
      (depth_le_of_roots made inj depth_le)
  · intro hlt
    exact decode_written_of_lt fits nonempty hlt hw cells_le roots_le

/-- The empty cell listed twice is written out of the grammar and refused. -/
theorem encode_conforms_iff_twice :
    ∃ bytes, encode [.empty, .empty] {} = .ok bytes ∧ ¬ Conforms bytes ∧
      decode {} bytes = .error (.bag (.countsExceed 2 0 1)) := by
  have hcells : reachable [Cell.empty, .empty] = {Cell.empty} := by
    rw [← reachable_empty]
    ext cell
    simp only [reachable, Set.mem_ofPred_eq, List.mem_cons, List.not_mem_nil, or_false, or_self]
  have hone : (reachable [Cell.empty, .empty]).ncard = 1 := by
    rw [hcells, Set.ncard_singleton]
  have hdepth : Cell.empty.depth = 0 := rfl
  obtain ⟨bytes, hbytes, -, hiff, -, hlt⟩ := encode_conforms_iff {} [.empty, .empty]
    (by simpa using made_empty) (by simp) (by decide) (by rw [hcells]; exact Set.injOn_singleton ..)
    (by rw [hone]; decide) (by simp [hdepth])
  refine ⟨bytes, hbytes, ?_, ?_⟩
  · intro h
    have := hiff.mp h
    rw [hone] at this
    exact absurd this (by decide)
  · have := hlt (by rw [hone]; decide)
    rwa [hone] at this

end

end BagOfCells.Bag
