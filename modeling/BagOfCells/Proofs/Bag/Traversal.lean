import BagOfCells.Proofs.Bag.RoundTrip

/-!
# The order of a search

The cells of a bag stand in the reverse of the order in which a depth-first search finishes them.
The search takes roots and references from the last to the first, notes the hash of a cell when it
enters the cell, and finishes the cell once it has finished all below it. The hashes it has noted
are at any time those of the finished cells and of the cells that are under way. A cell under way is
never met again, since it is not below itself and hashes tell cells apart. So a cell is passed over
only if it is finished, and then it stands behind all that refer to it.

## Main definitions

* `Bag.Search`: how far a search has come
* `Bag.enter`, `Bag.enterAll`: a cell, or some cells, searched
* `Bag.collect roots`: the cells in the reverse of the order they are finished in
* `Bag.Tracks underway search listed`: what a search with some cells under way has noted

## Main results

* `Bag.Tracks.enter`, `Bag.tracks_enter`: a search lists what visiting lists
* `Bag.collect_eq_order`: it gives the order of a bag
* `Bag.order_topological`: the order, the numbers found in it and the records read back
-/

namespace BagOfCells.Bag

open Cell

/-! ## The search -/

/-- How far a search has come. -/
structure Search where
  /-- The cells that are finished, the last one at the end. -/
  finished : List Cell
  /-- The hashes of the cells that have been entered. -/
  entered : List Digest

mutual
/-- Searches a cell, unless one with its hash has been entered. -/
def enter : Cell → Search → Search
  | .mk kind bits refs mask hashes, search =>
    let cell := Cell.mk kind bits refs mask hashes
    if cell.hash ∈ search.entered then search
    else
      let below := enterAll refs { search with entered := cell.hash :: search.entered }
      { below with finished := below.finished ++ [cell] }

/-- Searches some cells, the last one first. -/
def enterAll : List Cell → Search → Search
  | [], search => search
  | cell :: cells, search => enter cell (enterAll cells search)
end

/-- The cells that can be reached from some roots, the one that is finished last in front. -/
def collect (roots : List Cell) : List Cell := (enterAll roots ⟨[], []⟩).finished.reverse

theorem enter_eq (cell : Cell) (search : Search) :
    enter cell search =
      if cell.hash ∈ search.entered then search
      else
        let below := enterAll cell.refs { search with entered := cell.hash :: search.entered }
        { below with finished := below.finished ++ [cell] } := by
  cases cell
  rw [enter]
  rfl

/-! ## What a search has noted -/

/-- A search has finished the cells that are listed, the first of them last. It has entered these
and the cells under way, and no others. -/
structure Tracks (underway : List Digest) (search : Search) (listed : List Cell) : Prop where
  finished : search.finished.reverse = listed
  entered : ∀ hash, hash ∈ search.entered ↔
    hash ∈ underway ∨ ∃ cell ∈ listed, cell.hash = hash

section

variable {underway : List Digest} {search : Search} {listed : List Cell}

/-- A cell that is not under way is passed over just if it is listed. -/
theorem Tracks.mem_entered_iff (h : Tracks underway search listed) {cell : Cell}
    (fresh : cell.hash ∉ underway) :
    cell.hash ∈ search.entered ↔ listed.any (· == cell) = true := by
  rw [h.entered, or_iff_right fresh, List.any_eq_true]
  exact exists_congr fun x => and_congr_right fun _ => beq_iff.symm

/-- **Searching a cell**, given what searching the cells it refers to does while it is under way. -/
theorem Tracks.enter (h : Tracks underway search listed) {cell : Cell}
    (fresh : cell.hash ∉ underway)
    (below : Tracks (cell.hash :: underway)
      (enterAll cell.refs { search with entered := cell.hash :: search.entered })
      (visitAll cell.refs listed)) :
    Tracks underway (enter cell search) (visit cell listed) := by
  rw [enter_eq, visit_eq]
  by_cases hlisted : cell.hash ∈ search.entered
  · rw [if_pos hlisted, if_pos ((h.mem_entered_iff fresh).mp hlisted)]
    exact h
  · rw [if_neg hlisted, if_neg fun hany => hlisted ((h.mem_entered_iff fresh).mpr hany)]
    constructor
    · rw [List.reverse_append, below.finished]
      rfl
    · intro hash
      -- the cell is no longer under way, and is listed instead
      rw [below.entered, List.mem_cons, List.exists_mem_cons_iff, eq_comm (a := hash)]
      tauto

theorem tracks_enterAll_of {cells : List Cell}
    (enters : ∀ cell ∈ cells, ∀ search listed, Tracks underway search listed →
      Tracks underway (enter cell search) (visit cell listed))
    (h : Tracks underway search listed) :
    Tracks underway (enterAll cells search) (visitAll cells listed) := by
  induction cells with
  | nil =>
    rw [enterAll, visitAll]
    exact h
  | cons cell cells ih =>
    rw [enterAll, visitAll]
    exact enters cell List.mem_cons_self _ _
      (ih fun c hc => enters c (List.mem_cons_of_mem _ hc))

end

section

variable {roots : List Cell} (inj : Set.InjOn Cell.hash (reachable roots))

include inj

/-- **A search** below some roots lists what visiting lists, as long as it does not come upon a cell
that is under way. -/
theorem tracks_enter (cell : Cell) (hc : cell ∈ reachable roots) {underway : List Digest}
    (fresh : ∀ x ∈ reachable [cell], x.hash ∉ underway) (search : Search) (listed : List Cell)
    (h : Tracks underway search listed) :
    Tracks underway (enter cell search) (visit cell listed) := by
  induction cell using induction_refs generalizing underway search listed with
  | step cell ih =>
    have hself : cell ∈ reachable [cell] := reachable_self (List.mem_singleton_self _)
    refine h.enter (fresh cell hself) (tracks_enterAll_of (fun ref href => ?_) ⟨h.finished, ?_⟩)
    · apply ih ref href (reachable_ref hc href)
      intro x hx hmem
      obtain ⟨root, hroot, hr⟩ := hx
      obtain rfl := List.mem_singleton.mp hroot
      rcases List.mem_cons.mp hmem with heq | hmem
      · -- then the cell lies below its own references
        obtain ⟨top, htop, hto⟩ := hc
        have hx : x = cell := inj ⟨top, htop, (hto.tail href).trans hr⟩ ⟨top, htop, hto⟩ heq
        exact not_reachable_refs cell ⟨root, href, hx ▸ hr⟩
      · exact fresh x ⟨cell, List.mem_singleton_self _, .head href hr⟩ hmem
    · intro hash
      rw [List.mem_cons, List.mem_cons, h.entered, or_assoc]

/-- **The search** gives the order of a bag. -/
theorem collect_eq_order : collect roots = order roots :=
  (tracks_enterAll_of
    (fun root hroot => tracks_enter inj root (reachable_self hroot) fun _ _ => List.not_mem_nil)
    ⟨rfl, by simp⟩).finished

/-! ## Numbers and records -/

/-- **The record** of a cell is read back where the cell stands in the order. -/
theorem readRecord_written {own : Nat} {cell : Cell} (hown : (order roots)[own]? = some cell)
    (sound : cell.Sound) {header : Header} (hsize : header.refSize = Written.refSize roots)
    (hcells : header.cells = (order roots).length) {rest : Bytes} {position : Nat}
    (hword : position + (Written.record roots cell ++ rest).length < Bits.bound 64) :
    readRecord header own ⟨Written.record roots cell ++ rest, position⟩ =
      .ok (Written.recordContents roots cell)
        ⟨rest, position + (Written.record roots cell).length⟩ := by
  have hlt : header.cells < 256 ^ header.refSize := by
    rw [hsize, hcells]
    exact lt_pow_bytesNeeded _
  refine (parses_readRecord hlt own).complete hword _ _ rest rfl ⟨?_, ?_⟩
  · rw [hsize, Written.bytes_recordContents]
  · rw [hcells]
    exact Written.legal_recordContents inj hown sound

theorem nodup_hashes : ((order roots).map Cell.hash).Nodup :=
  (ordered_order inj).nodup.map_on fun _ ha _ hb =>
    inj ((mem_order_iff inj).mp ha) ((mem_order_iff inj).mp hb)

/-- The number found for a cell is that of its place, and fits its field. -/
theorem number?_spec {cell : Cell} (h : cell ∈ reachable roots) :
    number? (order roots) cell = some (place (order roots) cell) ∧
      (order roots)[place (order roots) cell]? = some cell ∧
      place (order roots) cell < 256 ^ bytesNeeded (order roots).length :=
  ⟨number?_eq inj h, getElem?_place inj h, (place_lt inj h).trans (lt_pow_bytesNeeded _)⟩

end

theorem getElem?_order_singleton (root : Cell) : (order [root])[0]? = some root := by
  rw [order, visitAll, visitAll, visit_eq]
  rfl

/-- **A topological order.** The search lists each cell below the roots once, no two with one hash,
and a lone root first. Every root and every reference is found by its hash where it stands, under a
number that fits its field, and a reference stands behind the cell. So every cell has a record, and
at the place of the cell the reader takes it, with the numbers of the references. -/
theorem order_topological (roots : List Cell) (made : ∀ root ∈ roots, Made root)
    (free : CollisionFree roots) :
    collect roots = order roots ∧
      (∀ cell, cell ∈ order roots ↔ cell ∈ reachable roots) ∧
      ((order roots).map Cell.hash).Nodup ∧
      (∀ root, roots = [root] → (order roots)[0]? = some root) ∧
      (∀ root ∈ roots, ∃ n, number? (order roots) root = some n ∧
        (order roots)[n]? = some root ∧ n < 256 ^ bytesNeeded (order roots).length) ∧
      ∀ own cell, (order roots)[own]? = some cell →
        (∀ ref ∈ cell.refs, ∃ n, number? (order roots) ref = some n ∧
          (order roots)[n]? = some ref ∧ n < 256 ^ bytesNeeded (order roots).length ∧ own < n) ∧
        ∃ bytes targets,
          record (order roots) (bytesNeeded (order roots).length) cell = .ok bytes ∧
          cell.refs.map (number? (order roots)) = targets.map some ∧
          ∀ (header : Header) (rest : Bytes) (position : Nat),
            header.refSize = bytesNeeded (order roots).length →
            header.cells = (order roots).length →
            position + (bytes ++ rest).length < Bits.bound 64 →
            readRecord header own ⟨bytes ++ rest, position⟩ =
              .ok ⟨cell.kind, cell.mask, cell.tagged, cell.bits.length, targets⟩
                ⟨rest, position + bytes.length⟩ := by
  have inj : Set.InjOn Cell.hash (reachable roots) := by
    intro a ha b hb
    exact eq_of_hash_eq made free ha hb
  refine ⟨collect_eq_order inj, fun _ => mem_order_iff inj, nodup_hashes inj, ?_, ?_, ?_⟩
  · rintro root rfl
    exact getElem?_order_singleton root
  · intro root hroot
    exact ⟨_, number?_spec inj (reachable_self hroot)⟩
  · intro own cell hown
    have hcell := (mem_order_iff inj).mp (List.mem_of_getElem? hown)
    refine ⟨fun ref href => ?_, Written.record roots cell, cell.refs.map (place (order roots)),
      record_eq inj hcell, ?_, ?_⟩
    · obtain ⟨hnumber, hplace, hfits⟩ := number?_spec inj (reachable_ref hcell href)
      exact ⟨_, hnumber, hplace, hfits, lt_place_of_getElem? inj hown href⟩
    · rw [List.map_map]
      exact List.map_congr_left fun ref href => number?_eq inj (reachable_ref hcell href)
    · intro header rest position hsize hcells hword
      exact readRecord_written inj hown (made_of_reachable made hcell).sound hsize hcells hword

/-- Of a root and a root below it, the one below stands behind the other. -/
theorem order_topological_twig :
    collect [.empty, twig] = order [.empty, twig] ∧
      ∃ own n, (order [.empty, twig])[own]? = some twig ∧
        number? (order [.empty, twig]) .empty = some n ∧ own < n := by
  have hcells : reachable [.empty, twig] = {twig, .empty} := by
    rw [← reachable_twig_empty]
    ext cell
    simp [reachable, or_comm]
  obtain ⟨hcollect, hmem, -, -, -, hrefs⟩ := order_topological [.empty, twig]
    (by simpa using ⟨made_empty, made_twig⟩) (collisionFree_twig hcells)
  have htwig : twig ∈ reachable [.empty, twig] := reachable_self (by simp)
  obtain ⟨own, hown⟩ := List.mem_iff_getElem?.mp ((hmem twig).mpr htwig)
  obtain ⟨n, hn, -, -, hlt⟩ := (hrefs own twig hown).1 .empty (List.mem_singleton_self _)
  exact ⟨hcollect, own, n, hown, hn, hlt⟩

end BagOfCells.Bag
