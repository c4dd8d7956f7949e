import BagOfCells.Bag.Order
import BagOfCells.Proofs.Cell.Made
import Mathlib.Data.Set.Card

/-!
# Which cells a bag lists

Visiting some cells puts in front of a list those that are missing, each in front of the cells it
refers to. It follows that a bag lists exactly the cells below its roots, each once, provided that
their hashes tell them apart. The number of a cell is its place in the list, and a cell refers to
greater numbers only.

## Main definitions

* `Bag.Ordered`: each cell once, in front of the cells it refers to
* `Bag.Extends`: what visiting some cells does to a list
* `Bag.place cells cell`: the number of a cell

## Main results

* `Bag.extends_visitAll`: visiting some cells does that
* `Bag.mem_order_iff`, `Bag.ordered_order`, `Bag.length_order`: the list of a bag
* `Bag.number?_eq`, `Bag.getElem?_place`: the number of a cell is its place
* `Bag.lt_place`: references point forward
-/

namespace BagOfCells.Bag

open Cell

/-- Each cell occurs once, in front of the cells it refers to. -/
def Ordered : List Cell → Prop
  | [] => True
  | cell :: cells => cell ∉ cells ∧ (∀ ref ∈ cell.refs, ref ∈ cells) ∧ Ordered cells

/-- A list `out` is `listed` with the missing ones of the cells below `cells` in front. -/
structure Extends (cells listed out : List Cell) : Prop where
  front : ∃ front, out = front ++ listed ∧ ∀ cell ∈ front, cell ∈ reachable cells
  mem : ∀ cell ∈ cells, cell ∈ out
  ordered : Ordered out

/-! ## Visiting -/

theorem sizeOf_le_of_reaches {parent cell : Cell} (h : Reaches parent cell) :
    sizeOf cell ≤ sizeOf parent := by
  induction h with
  | refl => exact le_rfl
  | @tail parent _ _ href ih =>
    apply le_trans (le_of_lt _) ih
    obtain ⟨kind, bits, refs, mask, hashes⟩ := parent
    have hlt : sizeOf _ < sizeOf refs := List.sizeOf_lt_of_mem href
    simp only [Cell.mk.sizeOf_spec]
    omega

theorem not_reachable_refs (cell : Cell) : cell ∉ reachable cell.refs := by
  rintro ⟨ref, href, hr⟩
  have hle := sizeOf_le_of_reaches hr
  obtain ⟨kind, bits, refs, mask, hashes⟩ := cell
  have hlt : sizeOf ref < sizeOf refs := List.sizeOf_lt_of_mem href
  simp only [Cell.mk.sizeOf_spec] at hle
  omega

theorem visit_eq (cell : Cell) (listed : List Cell) :
    visit cell listed =
      if listed.any (· == cell) then listed else cell :: visitAll cell.refs listed := by
  cases cell
  rw [visit]
  rfl

theorem beq_iff {a b : Cell} : (a == b) = true ↔ a.hash = b.hash :=
  beq_iff_eq (a := a.hash) (b := b.hash)

section

variable {roots : List Cell}

/-- Visiting one cell, given what visiting its references does. -/
theorem extends_visit (inj : Set.InjOn Cell.hash (reachable roots)) {cell : Cell}
    (hc : cell ∈ reachable roots) {listed : List Cell} (hl : ∀ x ∈ listed, x ∈ reachable roots)
    (ordered : Ordered listed)
    (refs : Extends cell.refs listed (visitAll cell.refs listed)) :
    Extends [cell] listed (visit cell listed) := by
  rw [visit_eq]
  split
  · next h =>
    -- a listed cell has its hash, and hashes tell cells apart
    obtain ⟨x, hx, heq⟩ := List.any_eq_true.mp h
    have hmem : cell ∈ listed := inj (hl x hx) hc (beq_iff.mp heq) ▸ hx
    exact ⟨⟨[], rfl, by simp⟩, by simpa using hmem, ordered⟩
  · next h =>
    obtain ⟨front, hf, hfront⟩ := refs.front
    have hnl : cell ∉ listed := by
      intro hmem
      exact h (List.any_eq_true.mpr ⟨cell, hmem, beq_iff.mpr rfl⟩)
    -- no cell lies below its own references, so it is not listed among them
    have hnf : cell ∉ front := by
      intro hmem
      exact not_reachable_refs cell (hfront cell hmem)
    refine ⟨⟨cell :: front, by rw [hf, List.cons_append], ?_⟩, by simp, ?_⟩
    · intro x hx
      rcases List.mem_cons.mp hx with rfl | hx
      · exact reachable_self (List.mem_singleton_self _)
      · obtain ⟨ref, href, hr⟩ := hfront x hx
        exact ⟨cell, List.mem_singleton_self _, .head href hr⟩
    · refine ⟨?_, refs.mem, refs.ordered⟩
      rw [hf, List.mem_append]
      exact not_or.mpr ⟨hnf, hnl⟩

/-- Visiting some cells, given what visiting each of them does. -/
theorem extends_visitAll_of {cells : List Cell}
    (visits : ∀ cell ∈ cells, ∀ listed, (∀ x ∈ listed, x ∈ reachable roots) → Ordered listed →
      Extends [cell] listed (visit cell listed))
    (hc : ∀ cell ∈ cells, cell ∈ reachable roots) {listed : List Cell}
    (hl : ∀ x ∈ listed, x ∈ reachable roots) (ordered : Ordered listed) :
    Extends cells listed (visitAll cells listed) := by
  induction cells with
  | nil =>
    rw [visitAll]
    exact ⟨⟨[], rfl, by simp⟩, by simp, ordered⟩
  | cons cell cells ih =>
    rw [visitAll]
    -- the later cells are visited first, so the first one finds them in the list
    have hrest := ih (fun c h => visits c (List.mem_cons_of_mem _ h))
      (fun c h => hc c (List.mem_cons_of_mem _ h))
    obtain ⟨rest, hr, hrest'⟩ := hrest.front
    have hlisted : ∀ x ∈ visitAll cells listed, x ∈ reachable roots := by
      intro x hx
      rw [hr, List.mem_append] at hx
      rcases hx with hx | hx
      · obtain ⟨c, hcm, hreach⟩ := hrest' x hx
        obtain ⟨root, hroot, hto⟩ := hc c (List.mem_cons_of_mem _ hcm)
        exact ⟨root, hroot, hto.trans hreach⟩
      · exact hl x hx
    have hfirst := visits cell List.mem_cons_self _ hlisted hrest.ordered
    obtain ⟨front, hf, hfront⟩ := hfirst.front
    refine ⟨⟨front ++ rest, by rw [hf, hr, List.append_assoc], ?_⟩, ?_, hfirst.ordered⟩
    · intro x hx
      rcases List.mem_append.mp hx with hx | hx
      · obtain ⟨c, hcm, hreach⟩ := hfront x hx
        exact ⟨c, List.mem_singleton.mp hcm ▸ List.mem_cons_self, hreach⟩
      · obtain ⟨c, hcm, hreach⟩ := hrest' x hx
        exact ⟨c, List.mem_cons_of_mem _ hcm, hreach⟩
    · intro c hcm
      rcases List.mem_cons.mp hcm with rfl | hcm
      · exact hfirst.mem _ (List.mem_singleton_self _)
      · rw [hf]
        exact List.mem_append_right _ (hrest.mem c hcm)

/-- **Visiting a cell** puts the missing ones of the cells below it in front. -/
theorem extends_visit_of_mem (inj : Set.InjOn Cell.hash (reachable roots)) (cell : Cell)
    (hc : cell ∈ reachable roots) (listed : List Cell) (hl : ∀ x ∈ listed, x ∈ reachable roots)
    (ordered : Ordered listed) : Extends [cell] listed (visit cell listed) := by
  induction cell using induction_refs generalizing listed with
  | step cell ih =>
    have hrefs := fun ref (href : ref ∈ cell.refs) => reachable_ref hc href
    exact extends_visit inj hc hl ordered
      (extends_visitAll_of (fun ref href => ih ref href (hrefs ref href)) hrefs hl ordered)

end

/-! ## The list of a bag -/

section

variable {roots : List Cell} (inj : Set.InjOn Cell.hash (reachable roots))

include inj

theorem extends_order : Extends roots [] (order roots) :=
  extends_visitAll_of
    (fun cell hcell listed hl ordered =>
      extends_visit_of_mem inj cell (reachable_self hcell) listed hl ordered)
    (fun _ => reachable_self) (by simp) trivial

end

section Ordered

variable {cells : List Cell}

theorem Ordered.refs (h : Ordered cells) {cell ref : Cell} (hc : cell ∈ cells)
    (href : ref ∈ cell.refs) : ref ∈ cells := by
  induction cells with
  | nil => cases hc
  | cons first cells ih =>
    rcases List.mem_cons.mp hc with rfl | hc
    · exact List.mem_cons_of_mem _ (h.2.1 ref href)
    · exact List.mem_cons_of_mem _ (ih h.2.2 hc)

theorem Ordered.reaches (h : Ordered cells) {parent cell : Cell} (hp : parent ∈ cells)
    (hr : Reaches parent cell) : cell ∈ cells := by
  induction hr with
  | refl => exact hp
  | tail _ href ih => exact h.refs ih href

theorem Ordered.nodup (h : Ordered cells) : cells.Nodup := by
  induction cells with
  | nil => exact List.nodup_nil
  | cons cell cells ih => exact List.nodup_cons.mpr ⟨h.1, ih h.2.2⟩

theorem Ordered.drop (h : Ordered cells) (n : Nat) : Ordered (cells.drop n) := by
  induction n generalizing cells with
  | zero => exact h
  | succ n ih =>
    cases cells with
    | nil => exact trivial
    | cons cell cells => exact ih h.2.2

end Ordered

section

variable {roots : List Cell} (inj : Set.InjOn Cell.hash (reachable roots))

include inj

/-- **A bag lists** exactly the cells below its roots. -/
theorem mem_order_iff {cell : Cell} : cell ∈ order roots ↔ cell ∈ reachable roots := by
  have h := extends_order inj
  constructor
  · obtain ⟨front, hf, hfront⟩ := h.front
    rw [hf, List.append_nil]
    exact hfront cell
  · rintro ⟨root, hroot, hr⟩
    exact h.ordered.reaches (h.mem root hroot) hr

/-- **A bag lists each cell** once, in front of the cells it refers to. -/
theorem ordered_order : Ordered (order roots) :=
  (extends_order inj).ordered

/-- A bag lists as many cells as there are below its roots. -/
theorem length_order : (order roots).length = (reachable roots).ncard := by
  classical
  have hs : reachable roots = ((order roots).toFinset : Set Cell) := by
    ext cell
    rw [List.coe_toFinset]
    exact (mem_order_iff inj).symm
  rw [hs, Set.ncard_coe_finset, List.toFinset_card_of_nodup (ordered_order inj).nodup]

end

/-! ## Numbers of cells -/

/-- The number of a cell: its place in the list. -/
def place (cells : List Cell) (cell : Cell) : Nat := cells.findIdx (· == cell)

section

variable {roots : List Cell} (inj : Set.InjOn Cell.hash (reachable roots))

include inj

/-- **Every cell has a number.** -/
theorem number?_eq {cell : Cell} (h : cell ∈ reachable roots) :
    number? (order roots) cell = some (place (order roots) cell) :=
  List.findIdx?_eq_some_of_exists ⟨cell, (mem_order_iff inj).mpr h, beq_iff.mpr rfl⟩

/-- **The number of a cell** is its place in the list. -/
theorem getElem?_place {cell : Cell} (h : cell ∈ reachable roots) :
    (order roots)[place (order roots) cell]? = some cell := by
  obtain ⟨hi, heq, -⟩ := List.findIdx?_eq_some_iff_getElem.mp (number?_eq inj h)
  have hcell : (order roots)[place (order roots) cell] = cell :=
    inj ((mem_order_iff inj).mp (List.getElem_mem hi)) h (beq_iff.mp heq)
  rw [List.getElem?_eq_getElem hi, hcell]

theorem place_lt {cell : Cell} (h : cell ∈ reachable roots) :
    place (order roots) cell < (order roots).length :=
  (List.getElem?_eq_some_iff.mp (getElem?_place inj h)).1

/-- **References point forward.** -/
theorem lt_place {front later : List Cell} {cell ref : Cell}
    (ho : order roots = front ++ cell :: later) (href : ref ∈ cell.refs) :
    front.length < place (order roots) ref := by
  have hord := ordered_order inj
  have hc : cell ∈ reachable roots := (mem_order_iff inj).mp (by simp [ho])
  have hplace := getElem?_place inj (reachable_ref hc href)
  have hlater : ref ∈ later := by
    have := hord.drop front.length
    rw [ho, List.drop_left] at this
    exact this.2.1 ref href
  obtain ⟨j, hj⟩ := List.getElem?_of_mem hlater
  have hget : (order roots)[front.length + 1 + j]? = some ref := by
    rw [ho, List.getElem?_append_right (by omega), ← hj,
      show front.length + 1 + j - front.length = j + 1 by omega, List.getElem?_cons_succ]
  -- no cell is listed twice, so the place that was found is that one
  have heq : place (order roots) ref = front.length + 1 + j :=
    (List.getElem?_inj (place_lt inj (reachable_ref hc href)) hord.nodup).mp
      (hplace.trans hget.symm)
  omega

theorem lt_place_of_getElem? {own : Nat} {cell ref : Cell}
    (h : (order roots)[own]? = some cell) (href : ref ∈ cell.refs) :
    own < place (order roots) ref := by
  obtain ⟨hlt, rfl⟩ := List.getElem?_eq_some_iff.mp h
  have ho : order roots =
      (order roots).take own ++ (order roots)[own] :: (order roots).drop (own + 1) := by
    rw [List.getElem_cons_drop, List.take_append_drop]
  have hplace := lt_place inj ho href
  rwa [List.length_take_of_le hlt.le] at hplace

end

end BagOfCells.Bag
