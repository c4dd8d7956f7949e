import BagOfCells.Proofs.Dictionary.Capacity

/-!
# Dictionaries that are written again

A dictionary that has been read from a cell has a cell again. Its entries tell the trie, so the new
cell has the forks and the labels of the old one, edge by edge, and differs from it only in the
forms of its labels. The written form is the shortest there is, so each new edge has room where the
old one had, and the new cell is as deep as the old one. If the old labels are in the written form
too, nothing differs.

## Main definitions

* `Trie.Spelled form width t cell`: the edges of a cell spell a trie, its labels in some form
* `Trie.Edge`, `Trie.edges`: the edges of a cell, in the order of their keys
* `Trie.Edge.Rewrites edge edge'`: an edge of the same place and label in the written form

## Main results

* `Trie.spelled_of_ofCell`, `Trie.spelled_of_toCell`: the cells a trie is read from, and its cell
* `Trie.Spelled.holds`, `Trie.Spelled.rewrites`, `Trie.Spelled.unique`: the two compared
* `Dictionary.toCell?_of_ofCell`: the cell of a dictionary that has been read
-/

namespace BagOfCells

open Outcome

/-- Some bits are a label in the form in which it is written. -/
def Label.Written (m : Nat) (label bits : Bits) : Prop := bits = encode m label

namespace Trie

/-! ## Spelling -/

/-- The edges of a cell spell a trie with keys of a width. In front of each stands the label, in a
form that is given for the bits still to come. -/
inductive Spelled (form : Nat → Bits → Bits → Prop) : Nat → Trie → Cell → Prop where
  | leaf {width : Nat} {label front : Bits} {value cell : Cell} (plain : cell.kind = .ordinary)
      (sound : cell.Sound) (spells : form width label front) (ends : label.length = width)
      (bits : cell.bits = front ++ value.bits) (refs : cell.refs = value.refs)
      (ordinary : value.kind = .ordinary) (made : value.Made) :
    Spelled form width (.leaf label value) cell
  | fork {width : Nat} {label : Bits} {z o : Trie} {zero one cell : Cell}
      (plain : cell.kind = .ordinary) (sound : cell.Sound) (spells : form width label cell.bits)
      (goes : label.length < width) (refs : cell.refs = [zero, one])
      (hz : Spelled form (width - label.length - 1) z zero)
      (ho : Spelled form (width - label.length - 1) o one) :
    Spelled form width (.fork label z o) cell

section

variable {width : Nat} {t : Trie} {cell cell' : Cell}

/-- **The cell a trie is read from** spells it. -/
theorem spelled_of_ofCell (hc : cell.Made) (hw : width < 2 ^ 64)
    (h : ofCell width cell = .ok t) : Spelled Label.Derives width t cell := by
  fun_induction ofCell width cell generalizing t with
  | case1 => cases h
  | case2 width cell label value hedge =>
    cases h
    obtain ⟨hk, front, hderives, hl, hbits, hrefs, hvk, hmade⟩ :=
      (loadEdge_eq_ok_iff hc hw).mp hedge
    exact .leaf hk hc.sound hderives hl hbits hrefs hvk hmade
  | case3 width cell label zero one hedge hlt ihz iho =>
    obtain ⟨hk, hderives, -, hrefs⟩ := (loadEdge_eq_ok_iff hc hw).mp hedge
    obtain ⟨z, hz, h⟩ := bind_eq_ok_iff.mp h
    obtain ⟨o, ho, h⟩ := bind_eq_ok_iff.mp h
    cases h
    exact .fork hk hc.sound hderives hlt hrefs (ihz (hc.refs (by simp [hrefs])) (by omega) hz)
      (iho (hc.refs (by simp [hrefs])) (by omega) ho)
  | case4 => cases h

/-- The cell of a leaf holds its label and the contents of its value. -/
theorem toCell_leaf_eq_ok {label : Bits} {value : Cell} (made : value.Made)
    (h : (leaf label value).toCell label.length = .ok cell) : value.kind = .ordinary ∧
      Cell.make .ordinary (Label.encode label.length label ++ value.bits) value.refs =
        .ok cell := by
  rcases toCell_leaf_cases made label with ⟨_, -, hk, -⟩ | ⟨-, e, he, -⟩
  · rw [toCell, Builder.build] at h
    rcases (Builder.stores_leaf label.length label hk).run_empty with
      ⟨-, -, hrun⟩ | ⟨-, e, hrun, -⟩ <;> rw [hrun] at h
    · exact ⟨hk, h⟩
    · cases h
  · cases he.symm.trans h

/-- **The cell of a trie** spells it in the written forms. -/
theorem spelled_of_toCell (hf : t.Fits width) (h : t.toCell width = .ok cell) :
    Spelled Label.Written width t cell := by
  induction hf generalizing cell with
  | leaf made =>
    obtain ⟨hk, hmake⟩ := toCell_leaf_eq_ok made h
    exact .leaf (Cell.kind_make hmake) (Cell.sound_of_make hmake) rfl rfl (Cell.bits_make hmake)
      (Cell.refs_make hmake) hk made
  | @fork label z o below _ _ ihz iho =>
    have hbelow : label.length + 1 + below - label.length - 1 = below := by omega
    obtain ⟨zero, one, hz, ho, hmake⟩ := toCell_fork_eq_ok h
    rw [hbelow] at hz ho
    refine .fork (Cell.kind_make hmake) (Cell.sound_of_make hmake) (Cell.bits_make hmake)
      (by omega) (Cell.refs_make hmake) ?_ ?_
    · rw [hbelow]
      exact ihz hz
    · rw [hbelow]
      exact iho ho

/-- **A cell that spells a trie** has room for it and is as deep. -/
theorem Spelled.holds (h : Spelled Label.Derives width t cell) :
    t.Plain ∧ ¬ t.Overfull width ∧ t.Holds cell := by
  induction h with
  | @leaf width label front value cell plain sound spells ends bits refs ordinary made =>
    refine ⟨ordinary, fun hfull => ?_, plain, sound, fun level => ?_⟩
    · have hlt := hfull front spells
      have hle := sound.bits_le
      rw [bits, List.length_append] at hle
      omega
    · -- the value has the references of the cell
      obtain ⟨other, hmake, hdepth⟩ := sound.exists_make_ordinary plain made.sound.bits_le
      have hvalue := Cell.make_of_sound made.sound
      rw [ordinary, ← refs, hmake] at hvalue
      cases hvalue
      exact (hdepth level).symm
  | @fork width label z o zero one cell plain sound spells goes refs _ _ ihz iho =>
    obtain ⟨hpz, hfz, hhz⟩ := ihz
    obtain ⟨hpo, hfo, hho⟩ := iho
    refine ⟨⟨hpz, hpo⟩, ?_, hhz.fork hho label plain sound refs⟩
    rintro (hfull | hfull | hfull)
    · exact not_lt.mpr sound.bits_le (hfull _ spells)
    · exact hfz hfull
    · exact hfo hfull

/-- **The cell in the written forms** is the only one. -/
theorem Spelled.unique (h : Spelled Label.Written width t cell)
    (h' : Spelled Label.Written width t cell') : cell = cell' := by
  induction h generalizing cell' with
  | leaf plain sound spells ends bits refs ordinary made =>
    obtain ⟨plain', sound', rfl, -, bits', refs', -, -⟩ := h'
    subst spells
    exact sound.eq sound' (plain.trans plain'.symm) (bits.trans bits'.symm) (refs.trans refs'.symm)
  | fork plain sound spells goes refs _ _ ihz iho =>
    cases h' with
    | fork plain' sound' spells' _ refs' hz' ho' =>
      rw [ihz hz', iho ho'] at refs
      exact sound.eq sound' (plain.trans plain'.symm) (spells.trans spells'.symm)
        (refs.trans refs'.symm)

end

/-! ## Edges -/

/-- An edge of a cell that spells a trie. -/
structure Edge where
  /-- The bits of the key in front of it. -/
  path : Bits
  /-- How many bits of the key are still to come. -/
  width : Nat
  label : Bits
  cell : Cell

/-- The edges of a cell that spells a trie, below a path. -/
def edges : Trie → (path : Bits) → (width : Nat) → Cell → List Edge
  | leaf label _, path, width, cell => [⟨path, width, label, cell⟩]
  | fork label z o, path, width, cell =>
    ⟨path, width, label, cell⟩ ::
      match cell.refs with
      | [zero, one] =>
        z.edges (path ++ label ++ [false]) (width - label.length - 1) zero ++
          o.edges (path ++ label ++ [true]) (width - label.length - 1) one
      | _ => []

/-- The label of an edge stands in the written form. -/
def Edge.Written (edge : Edge) : Prop :=
  Label.encode edge.width edge.label <+: edge.cell.bits

/-- An edge of the same place and label as another one, in the written form, with no more bits. -/
structure Edge.Rewrites (edge edge' : Edge) : Prop where
  path : edge'.path = edge.path
  width : edge'.width = edge.width
  label : edge'.label = edge.label
  written : edge'.Written
  length_le : edge'.cell.bits.length ≤ edge.cell.bits.length

section

variable {width : Nat} {t z o : Trie} {label : Bits} {cell cell' zero one : Cell}

theorem edges_fork (h : cell.refs = [zero, one]) (path : Bits) :
    (fork label z o).edges path width cell =
      ⟨path, width, label, cell⟩ ::
        (z.edges (path ++ label ++ [false]) (width - label.length - 1) zero ++
          o.edges (path ++ label ++ [true]) (width - label.length - 1) one) := by
  rw [edges, h]

/-- **Edge by edge**, the cell in the written forms takes no more bits than another one. -/
theorem Spelled.rewrites (h : Spelled Label.Derives width t cell)
    (h' : Spelled Label.Written width t cell') (path : Bits) :
    List.Forall₂ Edge.Rewrites (t.edges path width cell) (t.edges path width cell') := by
  induction h generalizing cell' path with
  | leaf plain sound spells ends bits refs ordinary made =>
    obtain ⟨-, -, rfl, -, bits', -, -, -⟩ := h'
    have hle := Label.length_encode_le spells
    refine .cons ⟨rfl, rfl, rfl, ⟨_, bits'.symm⟩, ?_⟩ .nil
    dsimp only
    rw [bits, bits', List.length_append, List.length_append]
    omega
  | fork plain sound spells goes refs _ _ ihz iho =>
    cases h' with
    | fork _ _ spells' _ refs' hz' ho' =>
      rw [edges_fork refs, edges_fork refs']
      refine .cons ⟨rfl, rfl, rfl, ⟨[], ?_⟩, ?_⟩
        (List.rel_append (ihz hz' _) (iho ho' _))
      · rw [List.append_nil]
        exact spells'.symm
      · exact spells' ▸ Label.length_encode_le spells

/-- **If every edge is in the written form**, the cell is spelled so. -/
theorem Spelled.written (hw : width < 2 ^ 64) (h : Spelled Label.Derives width t cell) {path : Bits}
    (hedges : ∀ edge ∈ t.edges path width cell, edge.Written) :
    Spelled Label.Written width t cell := by
  induction h generalizing path with
  | @leaf width label front value cell plain sound spells ends bits refs ordinary made =>
    obtain ⟨rest, hrest⟩ := hedges _ (List.mem_singleton_self _)
    have hfront := ((Slice.accepts_label hw).unique (Label.derives_encode ends.le) spells
      (hrest.trans bits)).1
    exact .leaf plain sound hfront.symm ends bits refs ordinary made
  | @fork width label z o zero one cell plain sound spells goes refs _ _ ihz iho =>
    rw [edges_fork refs] at hedges
    obtain ⟨⟨rest, hrest⟩, hbelow⟩ := List.forall_mem_cons.mp hedges
    obtain ⟨hzero, hone⟩ := List.forall_mem_append.mp hbelow
    have hlabel := ((Slice.accepts_label hw).unique (Label.derives_encode goes.le) spells
      (hrest.trans (List.append_nil _).symm)).1
    exact .fork plain sound hlabel.symm goes refs (ihz (by omega) hzero) (iho (by omega) hone)

end

end Trie

/-! ## Dictionaries -/

namespace Dictionary

/-- **A dictionary that has been read** from a cell has a cell, and is read from that one too. The
same trie is read from both, and each edge of the new cell has the label of the old one in the
written form, and no more bits. The new cell is the old one, hash and all, just if every label of
the old one is in the written form already. -/
theorem toCell?_of_ofCell {width : Nat} {cell : Cell} {d : Dictionary} (made : cell.Made)
    (parsed : ofCell width cell = .ok d) :
    ∃ root t, d.toCell? = .ok (some root) ∧ ofCell width root = .ok d ∧
      Trie.ofCell width cell = .ok t ∧ Trie.ofCell width root = .ok t ∧
      List.Forall₂ Trie.Edge.Rewrites (t.edges [] width cell) (t.edges [] width root) ∧
      ((∀ edge ∈ t.edges [] width cell, edge.Written) ↔ root = cell) := by
  obtain ⟨hroom, t, ht, rfl⟩ := ofCell_eq_ok_iff.mp parsed
  have hw : width < 2 ^ 64 := hroom.trans (by decide)
  have hfits := Trie.fits_ofCell made ht
  have hspelled := Trie.spelled_of_ofCell made hw ht
  -- of the three outcomes two are excluded by the cell that has been read
  obtain ⟨hplain, hfull, hholds⟩ := hspelled.holds
  obtain ⟨root, hroot⟩ : ∃ root, t.toCell width = .ok root := by
    rcases Trie.toCell_cases hfits with ⟨root, hroot, -⟩ | ⟨hbad, -⟩ | ⟨hdeep, -⟩
    · exact ⟨root, hroot⟩
    · exact absurd hbad (not_or.mpr ⟨not_not.mpr hplain, hfull⟩)
    · exact absurd hholds.shallow hdeep
  have hback := Trie.ofCell_toCell hfits hw hroot
  have hwritten := Trie.spelled_of_toCell hfits hroot
  have hrewrites := hspelled.rewrites hwritten []
  have htrie : HasTrie ⟨width, t.toEntries.map number⟩ t := ⟨hfits, rfl⟩
  refine ⟨root, t, ?_, ofCell_eq_ok_iff.mpr ⟨hroom, t, hback, rfl⟩, ht, hback, hrewrites,
    fun h => ?_, ?_⟩
  · rw [htrie.toCell?_eq hroom, hroot]
    rfl
  · exact hwritten.unique (hspelled.written hw h)
  · rintro rfl
    have hall := hrewrites.imp fun _ _ h => And.intro h.written h
    exact ((List.forall₂_and_left _ _).mp hall.flip).1

/-- A fork whose labels are in three forms, of which one is the written form, is written with the
same three edges, two of them anew. -/
theorem toCell?_of_ofCell_fork : ∃ zero one cell root d,
    Cell.ofBytes .ordinary [0xa0] 4 [] = .ok zero ∧ Cell.ofBytes .ordinary [0x50] 4 [] = .ok one ∧
      Cell.ofBytes .ordinary [0xc0] 5 [zero, one] = .ok cell ∧ ofCell 2 cell = .ok d ∧
      d.toCell? = .ok (some root) ∧ ofCell 2 root = .ok d ∧
      List.Forall₂ Trie.Edge.Rewrites
        [⟨[], 2, [], cell⟩, ⟨[false], 1, [false], zero⟩, ⟨[true], 1, [true], one⟩]
        ((Trie.fork [] (.leaf [false] .empty) (.leaf [true] .empty)).edges [] 2 root) ∧
      root ≠ cell := by
  obtain ⟨zero, one, cell, hzero, hone, hcell, made, h⟩ := exists_fork
  obtain ⟨t, ht, hentries⟩ := Trie.ofCell_of_hashmap made (by decide) h
  have parsed := ofCell_eq_ok_iff.mpr ⟨by decide, t, ht, rfl⟩
  obtain ⟨root, t', hroot, hback, ht', -, hrewrites, hiff⟩ := toCell?_of_ofCell made parsed
  obtain rfl : t = t' := Except.ok.inj (ht.symm.trans ht')
  -- the entries tell the trie
  obtain rfl : Trie.fork [] (.leaf [false] .empty) (.leaf [true] .empty) = t := by
    have hof := (Trie.fits_ofCell made ht).ofEntries_toEntries
    rw [hentries] at hof
    exact Option.some.inj hof
  have hmake := (Cell.ofBytes_eq_ok_iff.mp hcell).2
  have hedges : (Trie.fork [] (.leaf [false] .empty) (.leaf [true] .empty)).edges [] 2 cell =
      [⟨[], 2, [], cell⟩, ⟨[false], 1, [false], zero⟩, ⟨[true], 1, [true], one⟩] :=
    Trie.edges_fork (Cell.refs_make hmake) []
  rw [hedges] at hrewrites hiff
  refine ⟨zero, one, cell, root, _, hzero, hone, hcell, parsed, hroot, hback, hrewrites,
    fun heq => ?_⟩
  -- the empty label is written with two zeros
  have hwritten : Label.encode 2 [] <+: cell.bits := hiff.mpr heq _ List.mem_cons_self
  rw [Cell.bits_make hmake] at hwritten
  exact absurd hwritten (by decide)

end Dictionary

end BagOfCells
