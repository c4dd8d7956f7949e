import BagOfCells.Proofs.Dictionary.Grammar
import BagOfCells.Proofs.Dictionary.History

/-!
# Dictionaries that fit their cells

A dictionary has one trie, told by its entries, and the cells of that trie are made edge by edge. An
edge has room for its label in the written form or in none, since no form is shorter. So a cell is
made of the trie unless a value is exotic, an edge has no room, or the references on the way to a
value and below it are too many for a depth of two bytes. The first two are refusals; as the edges
are made in order, the first that fails decides which of the three is met. All this holds while
there is room for the keys themselves: they are spelled out before an edge is made.

## Main definitions

* `Trie.Plain`, `Trie.Overfull width`: a trie of ordinary values; one with an edge that has no room
* `Trie.height level`, `Trie.Shallow`: how deep a trie is with its values, and that it is not too
  deep
* `Trie.Holds t cell`: a cell that is as deep as a trie
* `Dictionary.HasTrie d t`: the trie of a dictionary

## Main results

* `Label.length_encode_le`: no form of a label is shorter than the written one
* `Trie.toCell_cases`: what becomes of a trie in a cell
* `Trie.Fits.ofEntries_toEntries`: a trie is told by its entries
* `Dictionary.toCell?_history`: what becomes of a dictionary in a cell, after any operations
-/

namespace BagOfCells

open Outcome

/-! ## Labels -/

namespace Label

variable {m : Nat} {label bits : Bits}

theorem derives_pieces (h : label.length ≤ m) {form : Form}
    (hu : form = .same → isUniform label = true) :
    Derives m label (pieces m label form).flatten := by
  cases form with
  | short =>
    rw [Slice.flatten_short, List.append_assoc]
    exact .short h
  | long =>
    rw [Slice.flatten_long]
    exact .long h
  | same =>
    rcases label with _ | ⟨bit, rest⟩
    · cases hu rfl
    · rw [Slice.flatten_same, ← Slice.eq_replicate_of_isUniform (hu rfl)]
      exact .same bit h

/-- **The written form** of a label derives it. -/
theorem derives_encode (h : label.length ≤ m) : Derives m label (encode m label) :=
  derives_pieces h Builder.isUniform_of_form

theorem length_pieces {form : Form} (hu : form = .same → isUniform label = true) :
    (pieces m label form).flatten.length = cost m label.length form := by
  cases form with
  | short =>
    rw [Slice.flatten_short, cost]
    simp only [List.length_append, List.length_replicate, List.length_singleton]
    omega
  | long =>
    rw [Slice.flatten_long, cost]
    simp only [List.length_append, List.length_singleton, Bits.length_ofNat]
    omega
  | same =>
    rcases label with _ | ⟨bit, rest⟩
    · cases hu rfl
    · rw [Slice.flatten_same, cost]
      simp only [List.length_append, List.length_singleton, Bits.length_ofNat]
      omega

/-- A derivation is of the cost of one of the forms, that of one repeated bit for such labels
alone. -/
theorem Derives.length_eq (h : Derives m label bits) :
    bits.length = cost m label.length .short ∨ bits.length = cost m label.length .long ∨
      (isUniform label = true ∨ label = []) ∧ bits.length = cost m label.length .same := by
  cases h with
  | short h =>
    left
    simp only [cost, List.length_cons, List.length_append, List.length_replicate]
    omega
  | long h =>
    right; left
    simp only [cost, List.length_cons, List.length_append, Bits.length_ofNat]
    omega
  | @same n bit h =>
    right; right
    constructor
    · cases n with
      | zero => exact .inr rfl
      | succ n => exact .inl (by simp [List.replicate_succ, isUniform])
    · simp only [cost, List.length_cons, Bits.length_ofNat]
      omega

theorem Derives.length_pos (h : Derives m label bits) : 0 < bits.length := by
  cases h <;> exact Nat.succ_pos _

/-- The written form costs least of those there are. -/
theorem cost_form_le (m : Nat) {other : Form} (hu : other = .same → isUniform label = true) :
    cost m label.length (form m label) ≤ cost m label.length other := by
  -- the repeated bit is written only where it costs less than both of the others
  have hmin : cost m label.length (form m label) ≤
      min (cost m label.length .short) (cost m label.length .long) := by
    unfold form
    dsimp only
    split
    · next h => exact h.2.le
    · split <;> omega
  cases other with
  | short => exact hmin.trans (min_le_left ..)
  | long => exact hmin.trans (min_le_right ..)
  | same =>
    unfold form at hmin ⊢
    dsimp only at hmin ⊢
    split
    · exact le_rfl
    · next h =>
      rw [if_neg h] at hmin
      exact hmin.trans (not_lt.mp fun hlt => h ⟨hu rfl, hlt⟩)

/-- **No derivation is shorter** than the written form. -/
theorem length_encode_le (h : Derives m label bits) : (encode m label).length ≤ bits.length := by
  rw [encode, length_pieces Builder.isUniform_of_form]
  rcases h.length_eq with h | h | ⟨hu | rfl, h⟩
  · exact h ▸ cost_form_le m nofun
  · exact h ▸ cost_form_le m nofun
  · exact h ▸ cost_form_le m fun _ => hu
  · -- an empty label costs less in the short form
    have hshort : cost m ([] : Bits).length (form m []) ≤ cost m ([] : Bits).length .short :=
      cost_form_le m nofun
    rw [h]
    simp only [cost, List.length_nil] at hshort ⊢
    omega

end Label

namespace Builder

theorem stores_pieces (pieces : List Bits) :
    Stores (pieces.forM (append · [])) pieces.flatten [] := by
  induction pieces with
  | nil => exact stores_pure
  | cons piece pieces ih => exact (stores_append piece []).bind ih

theorem stores_label (m : Nat) (label : Bits) :
    Stores (storeLabel m label) (Label.encode m label) [] :=
  stores_pieces _

/-- The contents of an ordinary cell behind a label. -/
theorem stores_leaf (m : Nat) (label : Bits) {value : Cell} (hk : value.kind = .ordinary) :
    Stores (do storeLabel m label; storeCell value) (Label.encode m label ++ value.bits)
      value.refs := by
  have hcell : storeCell value = append value.bits value.refs := by
    rw [storeCell, Cell.isExotic, hk]
    rfl
  rw [hcell]
  exact (stores_label m label).bind (stores_append value.bits value.refs)

/-- An exotic cell is not stored behind a label. -/
theorem run_leaf_of_exotic (m : Nat) (label : Bits) {value : Cell} (hk : value.kind ≠ .ordinary) :
    ∃ e, run (do storeLabel m label; storeCell value) empty = .error e ∧ e.isRefusal = true := by
  have he : value.isExotic = true := by simpa [Cell.isExotic, CellKind.isExotic] using hk
  have hcell : storeCell value = throw (.unsupportedKind value.kind) := by
    rw [storeCell, if_pos he]
  rw [hcell]
  unfold run
  rcases stores_label m label empty ⟨Nat.zero_le _, Nat.zero_le _⟩ with
    ⟨-, hstore⟩ | ⟨-, e, b', hstore, hrefusal⟩
  · rw [run_bind_of_ok hstore]
    exact ⟨_, rfl, rfl⟩
  · rw [run_bind_of_error hstore]
    exact ⟨e, rfl, hrefusal⟩

end Builder

/-! ## Tries -/

namespace Trie

/-- The values of a trie are ordinary cells. -/
def Plain : Trie → Prop
  | leaf _ value => value.kind = .ordinary
  | fork _ zero one => zero.Plain ∧ one.Plain

/-- Some edge of a trie with keys of a width takes more bits than a cell holds, in whatever form the
label stands: the label at a fork, the label and the value at a leaf. -/
def Overfull : Nat → Trie → Prop
  | width, leaf label value => ∀ bits, Label.Derives width label bits →
      Cell.maxBits < bits.length + value.bits.length
  | width, fork label zero one =>
    (∀ bits, Label.Derives width label bits → Cell.maxBits < bits.length) ∨
      zero.Overfull (width - label.length - 1) ∨ one.Overfull (width - label.length - 1)

/-- How many references deep a trie with its values is, at a level. -/
def height (level : Nat) : Trie → Nat
  | leaf _ value => value.depthAt level
  | fork _ zero one => 1 + max (zero.height level) (one.height level)

/-- No depth of a trie with its values leaves two bytes. -/
def Shallow (t : Trie) : Prop :=
  ∀ level, t.height level ≤ Cell.maxDepth

/-- A cell is an ordinary one, at each level as deep as a trie. -/
structure Holds (t : Trie) (cell : Cell) : Prop where
  kind : cell.kind = .ordinary
  sound : cell.Sound
  depth : ∀ level, cell.depthAt level = t.height level

theorem Holds.shallow {t : Trie} {cell : Cell} (h : t.Holds cell) : t.Shallow :=
  fun level => h.depth level ▸ h.sound.depthAt_le level

section

variable {width : Nat} {label : Bits} {value zero one : Cell} {z o : Trie}

/-- **The cell of a leaf** is there if the value is ordinary and has room behind the label. -/
theorem toCell_leaf_cases (made : value.Made) (label : Bits) :
    (∃ cell, (leaf label value).toCell label.length = .ok cell ∧ value.kind = .ordinary ∧
        ¬ (leaf label value).Overfull label.length ∧ (leaf label value).Holds cell) ∨
      (value.kind ≠ .ordinary ∨ (leaf label value).Overfull label.length) ∧
        ∃ e, (leaf label value).toCell label.length = .error e ∧ e.isRefusal = true := by
  rw [toCell, Builder.build]
  by_cases hk : value.kind = .ordinary
  · rcases (Builder.stores_leaf label.length label hk).run_empty with
      ⟨hbits, -, hrun⟩ | ⟨hfull, e, hrun, he⟩
    · left
      -- the cell has the references of the value, so it is as deep
      obtain ⟨cell, hmake, hdepth⟩ := made.sound.exists_make_ordinary hk hbits
      refine ⟨cell, ?_, hk, fun hfull => ?_, Cell.kind_make hmake, Cell.sound_of_make hmake, hdepth⟩
      · rw [hrun]
        exact hmake
      · have hlt := hfull _ (Label.derives_encode le_rfl)
        rw [List.length_append] at hbits
        omega
    · right
      refine ⟨.inr fun bits hderives => ?_, e, ?_, he⟩
      · have hle := Label.length_encode_le hderives
        have hrefs := made.sound.refs_le
        rw [List.length_append] at hfull
        omega
      · rw [hrun]
        rfl
  · obtain ⟨e, hrun, he⟩ := Builder.run_leaf_of_exotic label.length label hk
    refine .inr ⟨.inl hk, e, ?_, he⟩
    rw [hrun]
    rfl

/-- An ordinary cell over the cells of two tries is as deep as their fork. -/
theorem Holds.fork (hz : z.Holds zero) (ho : o.Holds one) (label : Bits) {cell : Cell}
    (hk : cell.kind = .ordinary) (hs : cell.Sound) (hrefs : cell.refs = [zero, one]) :
    (fork label z o).Holds cell where
  kind := hk
  sound := hs
  depth := by
    intro level
    have hover := hs.depthAt_over_ordinary hk (by
      rw [hrefs]
      simpa using ⟨⟨hz.sound, hz.kind⟩, ho.sound, ho.kind⟩) level
    rw [hover, hrefs, height, ← hz.depth, ← ho.depth]
    simp [Cell.depthOver]

/-- A cell over the cells of two tries is there unless one of them is too deep. -/
theorem make_fork_cases (hz : z.Holds zero) (ho : o.Holds one) (label : Bits) {bits : Bits}
    (hb : bits.length ≤ Cell.maxBits) :
    (∃ cell, Cell.make .ordinary bits [zero, one] = .ok cell ∧ (fork label z o).Holds cell) ∨
      ¬ (fork label z o).Shallow ∧ Cell.make .ordinary bits [zero, one] = .error .overflow := by
  have hrefs : [zero, one].length ≤ Cell.maxRefs := by simp [Cell.maxRefs]
  rcases Cell.make_ordinary_or_overdeep hb hrefs with
    ⟨cell, hmake, -⟩ | ⟨hmake, level, -, ref, href, hdeep⟩
  · exact .inl ⟨cell, hmake, hz.fork ho label (Cell.kind_make hmake) (Cell.sound_of_make hmake)
      (Cell.refs_make hmake)⟩
  · refine .inr ⟨fun hshallow => ?_, hmake⟩
    have hheight := hshallow level
    rw [height, ← hz.depth, ← ho.depth] at hheight
    change Cell.maxDepth ≤ ref.depthAt level at hdeep
    rcases List.mem_pair.mp href with rfl | rfl <;> omega

theorem toCell_fork_of_label_error {e : CellError}
    (h : Builder.run (Builder.storeLabel width label) .empty = .error e) :
    (fork label z o).toCell width = .error e := by
  rw [toCell, h]
  rfl

/-- The cell of a fork whose label fits, of what the tries below it give. -/
theorem toCell_fork_of_label (h : (Label.encode width label).length ≤ Cell.maxBits) :
    (fork label z o).toCell width = (do
      let zero ← z.toCell (width - label.length - 1)
      let one ← o.toCell (width - label.length - 1)
      Cell.make .ordinary (Label.encode width label) [zero, one]) := by
  have hlabel : Builder.run (Builder.storeLabel width label) .empty =
      .ok ⟨Label.encode width label, []⟩ := by
    rcases (Builder.stores_label width label).run_empty with ⟨-, -, hrun⟩ | ⟨hfull, -⟩
    · exact hrun
    · exact absurd ⟨h, Nat.zero_le _⟩ hfull
  have hrefs (zero one : Cell) : Builder.run (Builder.append [] [zero, one])
      ⟨Label.encode width label, []⟩ = .ok ⟨Label.encode width label, [zero, one]⟩ := by
    rw [Builder.run_eq_ok_iff, Builder.append_eq_ok_iff, List.append_nil]
    exact ⟨by simp [Builder.canFit, Builder.availableRefs, Cell.maxRefs], rfl⟩
  rw [toCell, hlabel]
  -- the label is all that the cell holds when the references are put down
  change (do
      let zero ← z.toCell (width - label.length - 1)
      let one ← o.toCell (width - label.length - 1)
      let b ← Builder.run (Builder.append [] [zero, one]) ⟨Label.encode width label, []⟩
      b.endCell) = _
  simp only [hrefs]
  rfl

theorem Shallow.below (h : (fork label z o).Shallow) : z.Shallow ∧ o.Shallow := by
  have hlevel (level : Nat) : 1 + max (z.height level) (o.height level) ≤ Cell.maxDepth := h level
  exact ⟨fun level => by have := hlevel level; omega, fun level => by have := hlevel level; omega⟩

/-- A label that does not fit in the written form fits in none. -/
theorem toCell_fork_of_not_fits (h : ¬ (Label.encode width label).length ≤ Cell.maxBits) :
    (∀ bits, Label.Derives width label bits → Cell.maxBits < bits.length) ∧
      ∃ e, (fork label z o).toCell width = .error e ∧ e.isRefusal = true := by
  constructor
  · intro bits hderives
    exact (not_le.mp h).trans_le (Label.length_encode_le hderives)
  · rcases (Builder.stores_label width label).run_empty with ⟨hfit, -⟩ | ⟨-, e, hrun, he⟩
    · exact absurd hfit h
    · exact ⟨e, toCell_fork_of_label_error hrun, he⟩

/-- **The cell of a trie** is there if its values are ordinary, its edges have room and it is not
too deep. -/
theorem toCell_cases {t : Trie} (hf : t.Fits width) :
    (∃ cell, t.toCell width = .ok cell ∧ t.Plain ∧ ¬ t.Overfull width ∧ t.Holds cell) ∨
      ((¬ t.Plain ∨ t.Overfull width) ∧
        ∃ e, t.toCell width = .error e ∧ e.isRefusal = true) ∨
      ¬ t.Shallow ∧ t.toCell width = .error .overflow := by
  induction hf with
  | leaf made => exact (toCell_leaf_cases made _).imp_right .inl
  | @fork label z o below _ _ ihz iho =>
    have hbelow : label.length + 1 + below - label.length - 1 = below := by omega
    simp only [Plain, Overfull, hbelow]
    by_cases hlabel : (Label.encode (label.length + 1 + below) label).length ≤ Cell.maxBits
    · rw [toCell_fork_of_label hlabel, hbelow]
      -- the first of the two tries that fails decides
      rcases ihz with ⟨zero, hz, hpz, hfz, hhz⟩ | ⟨hz, e, hez, he⟩ | ⟨hz, hez⟩
      · rcases iho with ⟨one, ho, hpo, hfo, hho⟩ | ⟨ho, e, heo, he⟩ | ⟨ho, heo⟩
        · rw [hz, ho]
          rcases make_fork_cases hhz hho label hlabel with ⟨cell, hmake, hh⟩ | ⟨hdeep, hmake⟩
          · refine .inl ⟨cell, hmake, ⟨hpz, hpo⟩, ?_, hh⟩
            rintro (hfull | hfull | hfull)
            · exact not_lt.mpr hlabel (hfull _ (Label.derives_encode (by omega)))
            · exact hfz hfull
            · exact hfo hfull
          · exact .inr (.inr ⟨hdeep, hmake⟩)
        · rw [hz, heo]
          refine .inr (.inl ⟨?_, e, rfl, he⟩)
          exact ho.imp (mt And.right) fun h => .inr (.inr h)
        · rw [hz, heo]
          exact .inr (.inr ⟨fun h => ho h.below.2, rfl⟩)
      · rw [hez]
        refine .inr (.inl ⟨?_, e, rfl, he⟩)
        exact hz.imp (mt And.left) fun h => .inr (.inl h)
      · rw [hez]
        exact .inr (.inr ⟨fun h => hz h.below.1, rfl⟩)
    · obtain ⟨hfull, e, hcell, he⟩ := toCell_fork_of_not_fits (z := z) (o := o) hlabel
      exact .inr (.inl ⟨.inr (.inl hfull), e, hcell, he⟩)

end

/-! ## The trie of some entries -/

section

variable {width : Nat} {entries : List (Bits × Cell)}

theorem branch_map_consKey (bit : Bool) (entries : List (Bits × Cell)) :
    branch bit (entries.map (consKey bit)) = entries := by
  rw [branch, List.filterMap_map]
  refine (List.filterMap_congr fun entry _ => ?_).trans List.filterMap_some
  exact if_pos rfl

theorem branch_map_consKey_of_ne {bit other : Bool} (h : bit ≠ other)
    (entries : List (Bits × Cell)) : branch bit (entries.map (consKey other)) = [] := by
  rw [List.eq_nil_iff_forall_not_mem]
  intro entry he
  obtain ⟨e, -, heq⟩ := List.mem_map.mp (mem_branch_iff.mp he)
  exact h (List.cons_eq_cons.mp (Prod.ext_iff.mp heq).1).1.symm

theorem branch_append (bit : Bool) (left right : List (Bits × Cell)) :
    branch bit (left ++ right) = branch bit left ++ branch bit right :=
  List.filterMap_append

theorem toEntries_ne_nil : (t : Trie) → t.toEntries ≠ []
  | leaf _ _ => List.cons_ne_nil _ _
  | fork _ zero _ => by simp [toEntries, toEntries_ne_nil zero]

theorem ofEntries_of_ne_nil (h : entries ≠ []) : ofEntries (width + 1) entries =
    match ofEntries width (branch false entries), ofEntries width (branch true entries) with
    | none, none => none
    | some zero, none => some (zero.consLabel false)
    | none, some one => some (one.consLabel true)
    | some zero, some one => some (fork [] zero one) := by
  obtain ⟨first, rest, rfl⟩ := List.exists_cons_of_ne_nil h
  rfl

theorem ofEntries_consLabel {t : Trie} (bit : Bool) (h : ofEntries width t.toEntries = some t) :
    ofEntries (width + 1) (t.consLabel bit).toEntries = some (t.consLabel bit) := by
  have hnil : ofEntries width [] = none := by cases width <;> rfl
  rw [ofEntries_of_ne_nil (toEntries_ne_nil _), toEntries_consLabel]
  cases bit with
  | false => rw [branch_map_consKey, branch_map_consKey_of_ne Bool.false_ne_true.symm, h, hnil]
  | true => rw [branch_map_consKey, branch_map_consKey_of_ne Bool.false_ne_true, h, hnil]

/-- **A trie is told by its entries.** -/
theorem Fits.ofEntries_toEntries {t : Trie} (h : t.Fits width) :
    ofEntries width t.toEntries = some t := by
  -- the label goes bit by bit, and behind it a fork goes on with its two tries
  induction h with
  | @leaf label value _ =>
    induction label with
    | nil => rfl
    | cons bit label ih => exact ofEntries_consLabel bit ih
  | @fork label z o below _ _ ihz iho =>
    induction label with
    | nil =>
      have hentries : (Trie.fork [] z o).toEntries =
          z.toEntries.map (consKey false) ++ o.toEntries.map (consKey true) := rfl
      have hbelow : ([] : Bits).length + 1 + below = below + 1 := by
        rw [List.length_nil, Nat.zero_add, Nat.add_comm]
      have hzero : branch false (Trie.fork [] z o).toEntries = z.toEntries := by
        rw [hentries, branch_append, branch_map_consKey,
          branch_map_consKey_of_ne Bool.false_ne_true, List.append_nil]
      have hone : branch true (Trie.fork [] z o).toEntries = o.toEntries := by
        rw [hentries, branch_append, branch_map_consKey,
          branch_map_consKey_of_ne Bool.false_ne_true.symm, List.nil_append]
      rw [hbelow, ofEntries_of_ne_nil (toEntries_ne_nil _), hzero, hone, ihz, iho]
    | cons bit label ih =>
      have hwidth : (bit :: label).length + 1 + below = label.length + 1 + below + 1 := by
        rw [List.length_cons]
        omega
      rw [hwidth]
      exact ofEntries_consLabel bit ih

theorem plain_iff {t : Trie} : t.Plain ↔ ∀ entry ∈ t.toEntries, entry.2.kind = .ordinary := by
  induction t with
  | leaf label value => simp [Plain, toEntries]
  | fork label z o ihz iho =>
    simp only [Plain, ihz, iho, toEntries_fork, List.forall_mem_append, List.forall_mem_map]
    rfl

end

end Trie

/-! ## Dictionaries -/

namespace Dictionary

/-- The trie of a dictionary has keys of its width, and spells its entries. -/
structure HasTrie (d : Dictionary) (t : Trie) : Prop where
  fits : t.Fits d.width
  entries_eq : t.toEntries.map number = d.entries

section

variable {d : Dictionary} {t : Trie}

theorem spell_number {width : Nat} {entry : Bits × Cell} (h : entry.1.length = width) :
    spell width (number entry) = entry := by
  subst h
  exact Prod.ext (Bits.ofNat_toNat entry.1) rfl

theorem HasTrie.map_spell (h : d.HasTrie t) : d.entries.map (spell d.width) = t.toEntries := by
  rw [← h.entries_eq, List.map_map]
  conv_rhs => rw [← List.map_id t.toEntries]
  exact List.map_congr_left fun e he => spell_number (h.fits.keyed.length_eq e he)

theorem HasTrie.trie?_eq (h : d.HasTrie t) : d.trie? = some t := by
  rw [Dictionary.trie?_eq, h.map_spell, h.fits.ofEntries_toEntries]

theorem HasTrie.unique {t' : Trie} (h : d.HasTrie t) (h' : d.HasTrie t') : t = t' :=
  Option.some.inj (h.trie?_eq.symm.trans h'.trie?_eq)

theorem HasTrie.isEmpty_eq (h : d.HasTrie t) : d.isEmpty = false := by
  rw [isEmpty, List.isEmpty_eq_false_iff, ← h.entries_eq]
  exact mt List.map_eq_nil_iff.mp (Trie.toEntries_ne_nil t)

theorem HasTrie.toCell?_eq (h : d.HasTrie t) (hw : d.width < 2 ^ 63) :
    d.toCell? = (t.toCell d.width).map some := by
  rw [toCell?_of_lt h.isEmpty_eq hw, h.trie?_eq]
  rfl

/-- A dictionary has a trie unless it is empty. -/
theorem Valid.exists_trie (h : d.Valid) (hne : d.isEmpty = false) : ∃ t, d.HasTrie t := by
  rcases h.trie?_cases with ⟨hempty, -⟩ | ⟨t, -, hfits, hentries⟩
  · rw [hempty] at hne
    cases hne
  · exact ⟨t, hfits, hentries⟩

theorem HasTrie.plain_iff (h : d.HasTrie t) :
    t.Plain ↔ ∀ entry ∈ d.entries, entry.2.kind = .ordinary := by
  rw [Trie.plain_iff, ← h.entries_eq, List.forall_mem_map]
  rfl

/-- **What becomes of a dictionary** with a trie in a cell, where there is room for its keys: there
is one if all values are ordinary, all edges have room and the trie is not too deep. -/
theorem HasTrie.toCell?_cases (h : d.HasTrie t) (hw : d.width < 2 ^ 63) :
    (∃ root, d.toCell? = .ok (some root) ∧ (∀ entry ∈ d.entries, entry.2.kind = .ordinary) ∧
        ¬ t.Overfull d.width ∧ t.Shallow) ∨
      (((∃ entry ∈ d.entries, entry.2.kind ≠ .ordinary) ∨ t.Overfull d.width) ∧
        ∃ e, d.toCell? = .error e ∧ e.isRefusal = true) ∨
      ¬ t.Shallow ∧ d.toCell? = .error .overflow := by
  have hplain : ¬ t.Plain ↔ ∃ entry ∈ d.entries, entry.2.kind ≠ .ordinary := by
    rw [h.plain_iff]
    simp only [not_forall, exists_prop]
  rw [h.toCell?_eq hw, ← hplain, ← h.plain_iff]
  rcases Trie.toCell_cases h.fits with ⟨cell, hcell, hp, hf, hh⟩ | ⟨hbad, e, hcell, he⟩ |
    ⟨hdeep, hcell⟩ <;> rw [hcell]
  · exact .inl ⟨cell, rfl, hp, hf, hh.shallow⟩
  · exact .inr (.inl ⟨hbad, e, rfl, he⟩)
  · exact .inr (.inr ⟨hdeep, rfl⟩)

end

/-- **What becomes of a dictionary in a cell**, after any operations on the empty one. If it has a
cell, it reads back from it; it is empty just if it has none and does not fail; otherwise it has one
trie. With keys shorter than `2 ^ 63` bits, and while no depth of that trie leaves two bytes, the
dictionary is refused just if some value is exotic or, whatever the form of the label, some edge
takes more bits than a cell holds; a trie that is too deep has no cell either. For longer keys there
is no room, so there is neither a cell nor a refusal, whatever the trie. -/
theorem toCell?_history (width : Nat) {ops : List Operation} (made : ∀ op ∈ ops, op.Made) :
    (∀ root, (history width ops).toCell? = .ok (some root) →
      ofCell width root = .ok (history width ops)) ∧
    ((history width ops).toCell? = .ok none ↔ (history width ops).isEmpty = true) ∧
    ((history width ops).isEmpty = false → ∃! t, (history width ops).HasTrie t) ∧
    ∀ t, (history width ops).HasTrie t →
      (width < 2 ^ 63 →
        (t.Shallow →
          ((∃ e, (history width ops).toCell? = .error e) ↔
            (∃ entry ∈ (history width ops).entries, entry.2.kind ≠ .ordinary) ∨
              t.Overfull width) ∧
          ∀ e, (history width ops).toCell? = .error e → e.isRefusal = true) ∧
        (¬ t.Shallow → ∃ e, (history width ops).toCell? = .error e)) ∧
      (2 ^ 63 ≤ width → (history width ops).toCell? = .error .overflow) := by
  have h := represents_history width made
  generalize history width ops = d at h ⊢
  obtain ⟨rfl, -, valid⟩ := h
  refine ⟨fun root hroot => ?_, ⟨fun hnone => ?_, fun hempty => ?_⟩, fun hne => ?_,
    fun t ht => ⟨fun hw => ⟨fun shallow => ?_, fun hdeep => ?_⟩, toCell?_of_le ht.isEmpty_eq⟩⟩
  · rcases valid.toCell?_cases hroot with ⟨hnone, -⟩ | ⟨cell, hcell, hback⟩
    · cases hnone
    · cases hcell
      exact hback
  · rcases valid.toCell?_cases hnone with ⟨-, hempty⟩ | ⟨cell, hcell, -⟩
    · rw [hempty]
      rfl
    · cases hcell
  · rw [eq_empty hempty]
    exact toCell?_empty _
  · obtain ⟨t, ht⟩ := valid.exists_trie hne
    exact ⟨t, ht, fun t' ht' => ht'.unique ht⟩
  · rcases ht.toCell?_cases hw with ⟨root, hcell, hp, hf, -⟩ | ⟨hbad, e, hcell, he⟩ | ⟨hdeep, -⟩
    · rw [hcell]
      refine ⟨iff_of_false nofun ?_, nofun⟩
      rintro (⟨entry, hmem, hk⟩ | hfull)
      · exact hk (hp entry hmem)
      · exact hf hfull
    · rw [hcell]
      exact ⟨iff_of_true ⟨e, rfl⟩ hbad, fun e' h => by cases h; exact he⟩
    · exact absurd shallow hdeep
  · rcases ht.toCell?_cases hw with ⟨-, -, -, -, shallow⟩ | ⟨-, e, hcell, -⟩ | ⟨-, hcell⟩
    · exact absurd shallow hdeep
    · exact ⟨e, hcell⟩
    · exact ⟨_, hcell⟩

/-- Two keys that part at their first bit. -/
def pair : List Operation := [.set (.word 0) .empty, .set (.word 128) .empty]

/-- The trie of the two keys. -/
def pairTrie : Trie := .fork [] (.leaf (Bits.ofNat 7 0) .empty) (.leaf (Bits.ofNat 7 0) .empty)

theorem hasTrie_pair : (history 8 pair).HasTrie pairTrie := by
  have hleaf : Trie.Fits (Bits.ofNat 7 0).length (.leaf (Bits.ofNat 7 0) .empty) :=
    .leaf Cell.made_empty
  have hfork : Trie.Fits (([] : Bits).length + 1 + (Bits.ofNat 7 0).length) pairTrie :=
    .fork hleaf hleaf
  exact ⟨hfork, rfl⟩

theorem shallow_pairTrie : pairTrie.Shallow := by
  have hdepth (level : Nat) : Cell.empty.depthAt level = 0 :=
    Cell.made_empty.sound.depthAt_over_ordinary rfl nofun level
  intro level
  simp [pairTrie, Trie.height, hdepth, Cell.maxDepth]

theorem not_overfull_pairTrie : ¬ pairTrie.Overfull 8 := by
  rintro (hfull | hfull | hfull)
  · exact absurd (hfull _ (Label.derives_encode (Nat.zero_le _))) (by decide)
  · exact absurd (hfull _ (Label.derives_encode le_rfl)) (by decide)
  · exact absurd (hfull _ (Label.derives_encode le_rfl)) (by decide)

/-- The two keys have a cell; a value that fills its cell leaves no room for a label, and has none;
and there is no room for keys that are too long. -/
theorem toCell?_history_pair :
    (∃ root, (history 8 pair).toCell? = .ok (some root) ∧
      ofCell 8 root = .ok (history 8 pair)) ∧
    (∃ value : Cell, value.Made ∧ value.bits.length = Cell.maxBits ∧
      ∃ e, (history 8 [.set (.word 0) value]).toCell? = .error e ∧ e.isRefusal = true) ∧
    (history (2 ^ 63) pair).toCell? = .error .overflow := by
  have made {key : Key} {value : Cell} (h : value.Made) : (Operation.set key value).Made := by
    rintro _ ⟨⟩
    exact h
  have hmade : ∀ op ∈ pair, op.Made := by
    simp only [pair, List.forall_mem_cons]
    exact ⟨made Cell.made_empty, made Cell.made_empty, nofun⟩
  refine ⟨?_, ?_, ?_⟩
  · obtain ⟨hback, hnone, -, htrie⟩ := toCell?_history 8 hmade
    obtain ⟨hiff, -⟩ := ((htrie _ hasTrie_pair).1 (by decide)).1 shallow_pairTrie
    cases hroot : (history 8 pair).toCell? with
    | ok root? =>
      cases root? with
      | none => cases hnone.mp hroot
      | some root => exact ⟨root, rfl, hback root hroot⟩
    | error e =>
      rcases hiff.mp ⟨e, hroot⟩ with ⟨entry, hmem, hk⟩ | hfull
      · have hentries : (history 8 pair).entries = [(0, .empty), (128, .empty)] := rfl
        rw [hentries, List.mem_pair] at hmem
        rcases hmem with rfl | rfl <;> exact absurd rfl hk
      · exact absurd hfull not_overfull_pairTrie
  · obtain ⟨value, hmake, -⟩ := Cell.made_empty.sound.exists_make_ordinary rfl
      (List.length_replicate (a := false)).le
    have hvalue : value.Made :=
      Cell.made_iff.mpr ⟨Cell.sound_of_make hmake, Cell.refs_make hmake ▸ nofun⟩
    have hbits : value.bits.length = Cell.maxBits := by
      rw [Cell.bits_make hmake, List.length_replicate]
    have hmade : ∀ op ∈ [Operation.set (.word 0) value], op.Made := by
      simp only [List.forall_mem_cons]
      exact ⟨made hvalue, nofun⟩
    have hleaf : Trie.Fits (Bits.ofNat 8 0).length (.leaf (Bits.ofNat 8 0) value) := .leaf hvalue
    have ht : (history 8 [.set (.word 0) value]).HasTrie (.leaf (Bits.ofNat 8 0) value) :=
      ⟨hleaf, rfl⟩
    have hfull : (Trie.leaf (Bits.ofNat 8 0) value).Overfull 8 := by
      intro bits hderives
      have hpos := hderives.length_pos
      omega
    obtain ⟨-, -, -, htrie⟩ := toCell?_history 8 hmade
    obtain ⟨hiff, hrefusal⟩ :=
      ((htrie _ ht).1 (by decide)).1 fun level => hvalue.sound.depthAt_le level
    obtain ⟨e, he⟩ := hiff.mpr (.inr hfull)
    exact ⟨value, hvalue, hbits, e, he, hrefusal e he⟩
  · obtain ⟨-, -, hexists, htrie⟩ := toCell?_history (2 ^ 63) hmade
    obtain ⟨t, ht, -⟩ := hexists rfl
    exact (htrie t ht).2 le_rfl

end Dictionary

end BagOfCells
