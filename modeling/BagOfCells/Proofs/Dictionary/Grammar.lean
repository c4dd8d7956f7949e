import BagOfCells.Proofs.Dictionary.Loaded
import BagOfCells.Proofs.Wire.Exact

/-!
# The grammar of dictionaries

A dictionary is a trie of ordinary cells. Each begins with a label in one of three forms, of no more
bits than the key has still to come. A label of all of them is a leaf: the rest of the cell is its
value. A shorter one is a fork: behind it stand two references to tries for what the key goes on
with, one bit later, and nothing else. The grammar is stated on cells, with the leaves and their
paths, and knows nothing of how a cell is read; a dictionary is read from just the cells that it
derives, and every other one is refused, unless the keys are too long for there to be room for one.

## Main definitions

* `Label.Derives m label bits`: the forms of a label
* `Trie.IsEdge width cell label node`: a label, and what stands behind it
* `Hashmap m cell leaves`: the grammar of tries

## Main results

* `Slice.accepts_label`: a label is read from its forms and no others
* `Trie.loadEdge_eq_ok_iff`, `Trie.isRefusal_of_loadEdge`: an edge is read from just the cells that
  are one
* `Trie.hashmap_of_ofCell`, `Trie.ofCell_of_hashmap`: what is read is derived, and what is derived
  is read
* `Dictionary.ofCell_iff_hashmap`: a dictionary is read from just the cells that derive one
-/

namespace BagOfCells

open Outcome

/-! ## Labels -/

/-- Some bits are a label of at most `m` bits in one of its three forms. -/
inductive Label.Derives (m : Nat) : Bits → Bits → Prop where
  /-- A zero, the length in unary, and the label. -/
  | short {label : Bits} (h : label.length ≤ m) :
    Derives m label (false :: (List.replicate label.length true ++ false :: label))
  /-- A one and a zero, the length in binary, and the label. -/
  | long {label : Bits} (h : label.length ≤ m) :
    Derives m label (true :: false :: (Bits.ofNat (lengthWidth m) label.length ++ label))
  /-- Two ones, the bit that fills the label, and the length in binary. -/
  | same {n : Nat} (bit : Bool) (h : n ≤ m) :
    Derives m (List.replicate n bit) (true :: true :: bit :: Bits.ofNat (lengthWidth m) n)

theorem Label.Derives.length_le {m : Nat} {label bits : Bits} (h : Derives m label bits) :
    label.length ≤ m := by
  cases h with
  | short h => exact h
  | long h => exact h
  | same bit h => rwa [List.length_replicate]

namespace Slice

/-- A load that goes on as one bit tells. -/
theorem Accepts.branch {α : Type} {yes no : Load α} {form form' : Bits → α → Prop}
    (hy : Accepts yes form) (hn : Accepts no form') :
    Accepts (loadBit >>= fun bit => if bit = true then yes else no) fun bits a =>
      (∃ rest, bits = true :: rest ∧ form rest a) ∨
        ∃ rest, bits = false :: rest ∧ form' rest a := by
  have hnext (bit : Bool) : Accepts (if bit = true then yes else no) fun bits a =>
      bit = true ∧ form bits a ∨ bit = false ∧ form' bits a := by
    cases bit with
    | true => exact hy.congr fun bits a => by simp
    | false => exact hn.congr fun bits a => by simp
  refine (accepts_bit.bind hnext).congr fun bits a => ⟨?_, ?_⟩
  · rintro ⟨_, bit, rest, rfl, rfl, ⟨rfl, h⟩ | ⟨rfl, h⟩⟩
    · exact .inl ⟨rest, rfl, h⟩
    · exact .inr ⟨rest, rfl, h⟩
  · rintro (⟨rest, rfl, h⟩ | ⟨rest, rfl, h⟩)
    · exact ⟨[true], true, rest, rfl, rfl, .inl ⟨rfl, h⟩⟩
    · exact ⟨[false], false, rest, rfl, rfl, .inr ⟨rfl, h⟩⟩

/-- A refusal in front of a load. -/
theorem accepts_refuse {β : Type} {condition : Prop} [Decidable condition] {e : CellError}
    {next : Unit → Load β} {form : Bits → β → Prop} (he : e.isRefusal = true)
    (h : Accepts (next ()) form) :
    Accepts (if condition then throw e >>= next else next ()) fun bits b =>
      ¬ condition ∧ form bits b := by
  split
  · next hc =>
    exact (accepts_throw (α := β) he).congr fun bits b => by simp [hc]
  · next hc => exact h.congr fun bits b => by simp [hc]

theorem accepts_unary {m left : Nat} (hm : left ≤ m) :
    Accepts (loadUnary m left) fun bits n =>
      ∃ k ≤ left, bits = List.replicate k true ++ [false] ∧ n = m - left + k := by
  induction left with
  | zero =>
    refine (Accepts.branch (accepts_throw rfl) (accepts_pure m)).congr fun bits n => ⟨?_, ?_⟩
    · rintro (⟨_, _, ⟨⟩⟩ | ⟨_, rfl, rfl, rfl⟩)
      exact ⟨0, le_rfl, rfl, rfl⟩
    · rintro ⟨k, hk, rfl, rfl⟩
      obtain rfl := Nat.le_zero.mp hk
      exact .inr ⟨[], rfl, rfl, rfl⟩
  | succ left ih =>
    refine (Accepts.branch (ih (Nat.le_of_succ_le hm)) (accepts_pure (m - (left + 1)))).congr
      fun bits n => ⟨?_, ?_⟩
    · rintro (⟨_, rfl, k, hk, rfl, rfl⟩ | ⟨_, rfl, rfl, rfl⟩)
      · exact ⟨k + 1, Nat.succ_le_succ hk, rfl, by omega⟩
      · exact ⟨0, Nat.zero_le _, rfl, rfl⟩
    · rintro ⟨k, hk, rfl, rfl⟩
      cases k with
      | zero => exact .inr ⟨[], rfl, rfl, rfl⟩
      | succ k => exact .inl ⟨_, rfl, k, Nat.le_of_succ_le_succ hk, rfl, by omega⟩

theorem accepts_each (n : Nat) :
    Accepts (loadEach n) fun bits a => a.length = n ∧ bits = a := by
  induction n with
  | zero =>
    refine (accepts_pure []).congr fun bits a => ⟨?_, ?_⟩
    · rintro ⟨rfl, rfl⟩
      exact ⟨rfl, rfl⟩
    · rintro ⟨h, rfl⟩
      obtain rfl := List.eq_nil_of_length_eq_zero h
      exact ⟨rfl, rfl⟩
  | succ n ih =>
    refine (accepts_bit.bind fun bit => ih.map (bit :: ·)).congr fun bits a => ⟨?_, ?_⟩
    · rintro ⟨_, bit, _, rfl, rfl, rest, ⟨rfl, rfl⟩, rfl⟩
      exact ⟨rfl, rfl⟩
    · rintro ⟨h, rfl⟩
      obtain ⟨bit, rest, rfl⟩ := List.exists_cons_of_length_eq_add_one h
      exact ⟨[bit], bit, rest, rfl, rfl, rest, ⟨Nat.succ.inj h, rfl⟩, rfl⟩

theorem accepts_length {m : Nat} (hm : m < 2 ^ 64) :
    Accepts (loadLength m) fun bits n => n ≤ m ∧ bits = Bits.ofNat (Label.lengthWidth m) n := by
  have hw := Label.lengthWidth_le hm
  refine ((accepts_word hw).bind fun word =>
    accepts_refuse rfl (accepts_pure word.toNat)).congr fun bits n => ⟨?_, ?_⟩
  · rintro ⟨front, _, _, rfl, ⟨hl, rfl⟩, hle, rfl, rfl⟩
    rw [Bits.toNat_toWord (hl.le.trans hw)] at hle ⊢
    rw [← hl, Bits.ofNat_toNat, List.append_nil]
    exact ⟨not_lt.mp hle, rfl⟩
  · rintro ⟨hle, rfl⟩
    have hl := Bits.length_ofNat (Label.lengthWidth m) n
    have hvalue := Label.toNat_toWord_length hm hle
    refine ⟨_, _, [], (List.append_nil _).symm, ⟨hl, rfl⟩, ?_, rfl, hvalue.symm⟩
    rw [hvalue]
    exact not_lt.mpr hle

/-- **A label** is read from just the bits that derive it. -/
theorem accepts_label {m : Nat} (hm : m < 2 ^ 64) :
    Accepts (loadLabel m) fun bits label => Label.Derives m label bits := by
  have hlength := accepts_length hm
  refine (Accepts.branch
    (Accepts.branch (accepts_bit.bind fun bit => hlength.map fun n => List.replicate n bit)
      (hlength.bind accepts_each))
    ((accepts_unary le_rfl).bind accepts_each)).congr fun bits label => ⟨?_, ?_⟩
  · rintro (⟨_, rfl, ⟨_, rfl, h⟩ | ⟨_, rfl, h⟩⟩ | ⟨_, rfl, h⟩)
    · obtain ⟨_, bit, _, rfl, rfl, n, ⟨hn, rfl⟩, rfl⟩ := h
      exact .same bit hn
    · obtain ⟨_, _, _, rfl, ⟨hn, rfl⟩, rfl, rfl⟩ := h
      exact .long hn
    · obtain ⟨_, _, _, rfl, ⟨k, hk, rfl, hn⟩, hl, rfl⟩ := h
      rw [Nat.sub_self, Nat.zero_add] at hn
      subst hn
      subst hl
      rw [List.append_assoc]
      exact .short hk
  · rintro (h | h | ⟨bit, h⟩)
    · refine .inr ⟨_, rfl, List.replicate label.length true ++ [false], label.length, label, ?_,
        ⟨label.length, h, rfl, ?_⟩, rfl, rfl⟩
      · rw [List.append_assoc]
        rfl
      · rw [Nat.sub_self, Nat.zero_add]
    · exact .inl ⟨_, rfl, .inr ⟨_, rfl, _, label.length, label, rfl, ⟨h, rfl⟩, rfl, rfl⟩⟩
    · exact .inl ⟨_, rfl, .inl ⟨_, rfl, [bit], bit, _, rfl, rfl, _, ⟨h, rfl⟩, rfl⟩⟩

end Slice

/-! ## Edges -/

namespace Trie

/-- What stands behind the label of an edge with `width` bits still to come: all that is left of the
cell as a value, if the label ends the key, and otherwise nothing but two references. -/
def IsEdge (width : Nat) (cell : Cell) (label : Bits) : Node → Prop
  | .value value => ∃ front, Label.Derives width label front ∧ label.length = width ∧
      cell.bits = front ++ value.bits ∧ cell.refs = value.refs ∧
      value.kind = .ordinary ∧ value.Made
  | .fork zero one => Label.Derives width label cell.bits ∧ label.length < width ∧
      cell.refs = [zero, one]

section

variable {width : Nat} {cell : Cell} {label : Bits} {node : Node}

theorem loadEdge_of_exotic (h : cell.kind ≠ .ordinary) (width : Nat) :
    loadEdge width cell = .error (.unsupportedKind cell.kind) := by
  have he : cell.isExotic = true := by simpa [Cell.isExotic, CellKind.isExotic] using h
  rw [loadEdge, Slice.ordinary, if_pos he]

theorem loadEdge_of_label {s : Slice} (hk : cell.kind = .ordinary)
    (h : Slice.loadLabel width (.ofCell cell) = .ok label s) :
    loadEdge width cell = match loadNode width label.length s with
      | .ok node _ => .ok (label, node)
      | .error e _ => .error e := by
  rw [loadEdge, Slice.ordinary_eq_ok hk]
  simp only [run_bind_of_ok h]
  cases hnode : loadNode width label.length s with
  | ok node s' => rw [run_bind_of_ok hnode]; rfl
  | error e s' => rw [run_bind_of_error hnode]

theorem loadEdge_of_label_error {e : CellError} {s : Slice} (hk : cell.kind = .ordinary)
    (h : Slice.loadLabel width (.ofCell cell) = .error e s) :
    loadEdge width cell = .error e := by
  rw [loadEdge, Slice.ordinary_eq_ok hk]
  simp only [run_bind_of_error h]

/-- Behind a label that ends the key all that is left is the value. -/
theorem loadNode_value (hc : cell.Made) (hk : cell.kind = .ordinary) {rest : Bits}
    (hr : rest <:+ cell.bits) (width : Nat) :
    ∃ value, loadNode width width ⟨cell, rest, cell.refs⟩ = .ok (.value value) ⟨cell, [], []⟩ ∧
      rest = value.bits ∧ cell.refs = value.refs ∧ value.kind = .ordinary ∧ value.Made := by
  obtain ⟨value, hmake, -⟩ := hc.sound.exists_make_ordinary hk (hr.length_le.trans hc.sound.bits_le)
  have hvk := Cell.kind_make hmake
  have hvalue := Cell.sound_of_make hmake
  have hbits := Cell.bits_make hmake
  have hrefs := Cell.refs_make hmake
  refine ⟨value, ?_, hbits.symm, hrefs.symm, hvk,
    Cell.made_iff.mpr ⟨hvalue, fun ref href => hc.refs (hrefs ▸ href)⟩⟩
  have hread := Slice.reads_toCell hvalue hvk cell [] []
  rw [List.append_nil, List.append_nil, hbits, hrefs] at hread
  have hload := hread ⟨hc.sound, hr, List.suffix_rfl⟩ fun _ => ⟨rfl, rfl⟩
  unfold loadNode
  rw [if_pos rfl, run_bind_of_ok hload]
  rfl

/-- Behind any other label there are two references and nothing else. -/
theorem loadNode_fork {length : Nat} (h : length ≠ width) (s : Slice) :
    (∃ zero one, s.bits = [] ∧ s.refs = [zero, one] ∧
        loadNode width length s = .ok (.fork zero one) s) ∨
      (¬ (s.bits = [] ∧ ∃ zero one, s.refs = [zero, one])) ∧
        ∃ e, loadNode width length s = .error e s ∧ e.isRefusal = true := by
  obtain ⟨cell, bits, refs⟩ := s
  unfold loadNode
  rw [if_neg h]
  match refs, bits with
  | [zero, one], [] => exact .inl ⟨zero, one, rfl, rfl, rfl⟩
  | [zero, one], bit :: bits => exact .inr ⟨fun hs => (nomatch hs.1), _, rfl, rfl⟩
  | [], _ | [_], _ | _ :: _ :: _ :: _, _ =>
    exact .inr ⟨fun ⟨_, _, _, hs⟩ => (nomatch hs), _, rfl, rfl⟩

theorem loadLabel_eq_ok_iff (hw : width < 2 ^ 64) {s : Slice} :
    Slice.loadLabel width (.ofCell cell) = .ok label s ↔
      ∃ front rest, s = ⟨cell, rest, cell.refs⟩ ∧ cell.bits = front ++ rest ∧
        Label.Derives width label front := by
  rw [(Slice.accepts_label hw).ok_iff, Slice.ofCell]
  constructor
  · rintro ⟨front, hs, h⟩
    obtain ⟨hcell, hbits, hrefs⟩ := Slice.mk.inj hs
    refine ⟨front, s.bits, ?_, hbits, h⟩
    rw [hrefs, hcell]
  · rintro ⟨front, rest, rfl, hbits, h⟩
    exact ⟨front, by rw [hbits], h⟩

/-- An edge is read from a cell that is one, or the cell is refused. -/
theorem loadEdge_cases (hc : cell.Made) (hw : width < 2 ^ 64) :
    (∃ label node, loadEdge width cell = .ok (label, node) ∧ cell.kind = .ordinary ∧
        IsEdge width cell label node) ∨
      ∃ e, loadEdge width cell = .error e ∧ e.isRefusal = true := by
  by_cases hk : cell.kind = .ordinary
  · cases hlabel : Slice.loadLabel width (.ofCell cell) with
    | error e s =>
      exact .inr ⟨e, loadEdge_of_label_error hk hlabel,
        (Slice.accepts_label hw).refuses _ _ _ hlabel⟩
    | ok label s =>
      have hedge := loadEdge_of_label hk hlabel
      obtain ⟨front, rest, rfl, hbits, hderives⟩ := (loadLabel_eq_ok_iff hw).mp hlabel
      by_cases hl : label.length = width
      · obtain ⟨value, hnode, hvalue, hrefs, hvk, hmade⟩ :=
          loadNode_value hc hk (hbits ▸ List.suffix_append front rest) width
        rw [hl, hnode] at hedge
        exact .inl ⟨label, .value value, hedge, hk, front, hderives, hl, hvalue ▸ hbits, hrefs,
          hvk, hmade⟩
      · rcases loadNode_fork hl ⟨cell, rest, cell.refs⟩ with
          ⟨zero, one, hrest, hrefs, hnode⟩ | ⟨-, e, hnode, he⟩
        · rw [hnode] at hedge
          change rest = [] at hrest
          rw [hrest, List.append_nil] at hbits
          exact .inl ⟨label, .fork zero one, hedge, hk, hbits ▸ hderives,
            lt_of_le_of_ne hderives.length_le hl, hrefs⟩
        · rw [hnode] at hedge
          exact .inr ⟨e, hedge, he⟩
  · exact .inr ⟨_, loadEdge_of_exotic hk width, rfl⟩

theorem loadEdge_of_isEdge (hc : cell.Made) (hw : width < 2 ^ 64) (hk : cell.kind = .ordinary)
    (h : IsEdge width cell label node) : loadEdge width cell = .ok (label, node) := by
  cases node with
  | value value =>
    obtain ⟨front, hderives, hl, hbits, hrefs, hvk, hmade⟩ := h
    have hlabel := (loadLabel_eq_ok_iff hw).mpr ⟨front, value.bits, rfl, hbits, hderives⟩
    obtain ⟨value', hnode, hbits', hrefs', hvk', hmade'⟩ :=
      loadNode_value hc hk (hbits ▸ List.suffix_append front value.bits) width
    -- the value that is read has the parts of the one at hand
    obtain rfl : value = value' := hmade.sound.eq hmade'.sound (hvk.trans hvk'.symm) hbits'
      (hrefs.symm.trans hrefs')
    rw [loadEdge_of_label hk hlabel, hl, hnode]
  | fork zero one =>
    obtain ⟨hderives, hl, hrefs⟩ := h
    have hlabel := (loadLabel_eq_ok_iff hw).mpr
      ⟨cell.bits, [], rfl, (List.append_nil _).symm, hderives⟩
    rw [loadEdge_of_label hk hlabel]
    rcases loadNode_fork hl.ne ⟨cell, [], cell.refs⟩ with
      ⟨zero', one', -, hrefs', hnode⟩ | ⟨hnot, -⟩
    · cases hrefs.symm.trans hrefs'
      rw [hnode]
    · exact absurd ⟨rfl, zero, one, hrefs⟩ hnot

/-- **An edge** is read from just the ordinary cells that are one. -/
theorem loadEdge_eq_ok_iff (hc : cell.Made) (hw : width < 2 ^ 64) :
    loadEdge width cell = .ok (label, node) ↔
      cell.kind = .ordinary ∧ IsEdge width cell label node := by
  refine ⟨fun h => ?_, fun ⟨hk, h⟩ => loadEdge_of_isEdge hc hw hk h⟩
  rcases loadEdge_cases hc hw with ⟨label', node', hedge, hk, hnode⟩ | ⟨e, hedge, -⟩
  · cases h.symm.trans hedge
    exact ⟨hk, hnode⟩
  · cases h.symm.trans hedge

/-- **All other cells** are refused. -/
theorem isRefusal_of_loadEdge (hc : cell.Made) (hw : width < 2 ^ 64) {e : CellError}
    (h : loadEdge width cell = .error e) : e.isRefusal = true := by
  rcases loadEdge_cases hc hw with ⟨label, node, hedge, -⟩ | ⟨e', hedge, he⟩
  · cases h.symm.trans hedge
  · cases h.symm.trans hedge
    exact he

end

end Trie

/-! ## Tries -/

/-- A cell is derived as a trie with `m` bits of the key to come, with its leaves in order: the bits
on the path to each and its value. -/
inductive Hashmap : Nat → Cell → List (Bits × Cell) → Prop where
  /-- A leaf is a label of all the bits to come, and behind it a value. -/
  | leaf {cell value : Cell} {label front : Bits} (plain : cell.kind = .ordinary)
      (derives : Label.Derives label.length label front) (bits : cell.bits = front ++ value.bits)
      (refs : cell.refs = value.refs) (ordinary : value.kind = .ordinary) (made : value.Made) :
    Hashmap label.length cell [(label, value)]
  /-- A fork is a label that leaves a bit and the bits below, and two references to tries with the
  bits below to come: the first one goes on with a zero, the second one with a one. -/
  | fork {cell zero one : Cell} {label : Bits} {below : Nat} {zeros ones : List (Bits × Cell)}
      (plain : cell.kind = .ordinary)
      (derives : Label.Derives (label.length + 1 + below) label cell.bits)
      (refs : cell.refs = [zero, one]) (hz : Hashmap below zero zeros)
      (ho : Hashmap below one ones) :
    Hashmap (label.length + 1 + below) cell
      (zeros.map (fun (key, value) => (label ++ false :: key, value)) ++
        ones.map (fun (key, value) => (label ++ true :: key, value)))

/-- A cell that derives a trie begins with a label. -/
theorem Hashmap.exists_label {m : Nat} {cell : Cell} {leaves : List (Bits × Cell)}
    (h : Hashmap m cell leaves) :
    ∃ label front rest, Label.Derives m label front ∧ cell.bits = front ++ rest := by
  cases h with
  | leaf _ derives bits => exact ⟨_, _, _, derives, bits⟩
  | fork _ derives => exact ⟨_, _, [], derives, (List.append_nil _).symm⟩

namespace Trie

variable {width : Nat} {cell : Cell}

/-- **What is read is derived.** -/
theorem hashmap_of_ofCell {t : Trie} (hc : cell.Made) (hw : width < 2 ^ 64)
    (h : ofCell width cell = .ok t) : Hashmap width cell t.toEntries := by
  fun_induction ofCell width cell generalizing t with
  | case1 => cases h
  | case2 width cell label value hedge =>
    cases h
    obtain ⟨hk, front, hderives, rfl, hbits, hrefs, hvk, hmade⟩ :=
      (loadEdge_eq_ok_iff hc hw).mp hedge
    exact .leaf hk hderives hbits hrefs hvk hmade
  | case3 width cell label zero one hedge hlt ihz iho =>
    obtain ⟨hk, hderives, -, hrefs⟩ := (loadEdge_eq_ok_iff hc hw).mp hedge
    obtain ⟨z, hz, h⟩ := bind_eq_ok_iff.mp h
    obtain ⟨o, ho, h⟩ := bind_eq_ok_iff.mp h
    cases h
    have hzero : zero.Made := hc.refs (by simp [hrefs])
    have hone : one.Made := hc.refs (by simp [hrefs])
    obtain ⟨below, rfl⟩ : ∃ below, width = label.length + 1 + below :=
      Nat.exists_eq_add_of_le hlt
    have hbelow : label.length + 1 + below - label.length - 1 = below := by omega
    rw [hbelow] at ihz iho hz ho
    exact .fork hk hderives hrefs (ihz hzero (by omega) hz) (iho hone (by omega) ho)
  | case4 => cases h

/-- **What is derived is read**, leaf by leaf. -/
theorem ofCell_of_hashmap {leaves : List (Bits × Cell)} (hc : cell.Made) (hw : width < 2 ^ 64)
    (h : Hashmap width cell leaves) : ∃ t, ofCell width cell = .ok t ∧ t.toEntries = leaves := by
  induction h with
  | @leaf cell value label front plain derives bits refs ordinary made =>
    have hedge : IsEdge label.length cell label (.value value) :=
      ⟨front, derives, rfl, bits, refs, ordinary, made⟩
    exact ⟨_, ofCell_of_value (loadEdge_of_isEdge hc hw plain hedge), rfl⟩
  | @fork cell zero one label below zeros ones plain derives refs _ _ ihz iho =>
    have hl : label.length < label.length + 1 + below := by omega
    have hbelow : label.length + 1 + below - label.length - 1 = below := by omega
    have hedge : IsEdge (label.length + 1 + below) cell label (.fork zero one) :=
      ⟨derives, hl, refs⟩
    obtain ⟨z, hz, rfl⟩ := ihz (hc.refs (by simp [refs])) (by omega)
    obtain ⟨o, ho, rfl⟩ := iho (hc.refs (by simp [refs])) (by omega)
    refine ⟨fork label z o, ?_, rfl⟩
    rw [ofCell_of_fork (loadEdge_of_isEdge hc hw plain hedge) hl, hbelow, hz, ho]
    rfl

theorem isRefusal_of_ofCell {e : CellError} (hc : cell.Made) (hw : width < 2 ^ 64)
    (h : ofCell width cell = .error e) : e.isRefusal = true := by
  fun_induction ofCell width cell with
  | case1 width cell e' hedge =>
    cases h
    exact isRefusal_of_loadEdge hc hw hedge
  | case2 => cases h
  | case3 width cell label zero one hedge hlt ihz iho =>
    obtain ⟨-, -, -, hrefs⟩ := (loadEdge_eq_ok_iff hc hw).mp hedge
    rcases bind_eq_error_iff.mp h with h | ⟨z, hz, h⟩
    · exact ihz (hc.refs (by simp [hrefs])) (by omega) h
    rcases bind_eq_error_iff.mp h with h | ⟨o, ho, h⟩
    · exact iho (hc.refs (by simp [hrefs])) (by omega) h
    · cases h
  | case4 width cell label zero one hedge hlt =>
    cases h
    rfl

end Trie

namespace Dictionary

variable {width : Nat} {cell : Cell}

/-- The leaves that a cell derives are those of one trie, in ascending order of their keys. -/
theorem keyed_of_hashmap {leaves : List (Bits × Cell)} (hc : cell.Made) (hw : width < 2 ^ 64)
    (h : Hashmap width cell leaves) : Trie.Keyed width leaves := by
  obtain ⟨t, ht, rfl⟩ := Trie.ofCell_of_hashmap hc hw h
  exact (Trie.fits_ofCell hc ht).keyed

theorem isRefusal_of_ofCell {e : CellError} (hc : cell.Made) (hw : width < 2 ^ 63)
    (h : ofCell width cell = .error e) : e.isRefusal = true := by
  rw [ofCell_of_lt hw] at h
  cases ht : Trie.ofCell width cell with
  | ok t =>
    rw [ht] at h
    cases h
  | error e' =>
    rw [ht] at h
    cases h
    exact Trie.isRefusal_of_ofCell hc (hw.trans (by decide)) ht

/-- **A dictionary is read from just the cells that derive one**, where there is room for its keys:
they must be shorter than `2 ^ 63` bits. What is read has one entry for each leaf: under the number
that the labels and branch bits on its path spell, which are as many as the keys have, its value. A
cell that derives none is refused. For longer keys there is no answer, whatever the cell. -/
theorem ofCell_iff_hashmap (made : cell.Made) (hw : width < 2 ^ 64) :
    (∀ d, ofCell width cell = .ok d ↔ width < 2 ^ 63 ∧ ∃ leaves, Hashmap width cell leaves ∧
      d = ⟨width, leaves.map fun (path, value) => (Bits.toNat path, value)⟩) ∧
    (∀ leaves, Hashmap width cell leaves → (∀ leaf ∈ leaves, leaf.1.length = width) ∧
      leaves.Pairwise fun a b => Bits.toNat a.1 < Bits.toNat b.1) ∧
    ((∃ e, ofCell width cell = .error e ∧ e.isRefusal = true) ↔
      width < 2 ^ 63 ∧ ¬ ∃ leaves, Hashmap width cell leaves) ∧
    (ofCell width cell = .error .overflow ↔ 2 ^ 63 ≤ width) ∧
    ofCell width cell ≠ .error .outOfBounds := by
  have hread (d : Dictionary) : ofCell width cell = .ok d ↔ width < 2 ^ 63 ∧ ∃ leaves,
      Hashmap width cell leaves ∧
        d = ⟨width, leaves.map fun (path, value) => (Bits.toNat path, value)⟩ := by
    rw [ofCell_eq_ok_iff]
    refine and_congr_right fun _ => ⟨?_, ?_⟩
    · rintro ⟨t, ht, rfl⟩
      exact ⟨t.toEntries, Trie.hashmap_of_ofCell made hw ht, rfl⟩
    · rintro ⟨leaves, h, rfl⟩
      obtain ⟨t, ht, rfl⟩ := Trie.ofCell_of_hashmap made hw h
      exact ⟨t, ht, rfl⟩
  refine ⟨hread, fun leaves h => ?_, ?_⟩
  · have hkeyed := keyed_of_hashmap made hw h
    exact ⟨hkeyed.length_eq, hkeyed.sorted⟩
  -- where there is room the cell decides, elsewhere it is not looked at
  rcases lt_or_ge width (2 ^ 63) with hlt | hle
  · cases hcell : ofCell width cell with
    | ok d =>
      obtain ⟨-, leaves, h, -⟩ := (hread d).mp hcell
      exact ⟨iff_of_false nofun fun hnone => hnone.2 ⟨leaves, h⟩,
        iff_of_false nofun (not_le.mpr hlt), nofun⟩
    | error e =>
      have he := isRefusal_of_ofCell made hlt hcell
      refine ⟨iff_of_true ⟨e, rfl, he⟩ ⟨hlt, ?_⟩, iff_of_false ?_ (not_le.mpr hlt), ?_⟩
      · rintro ⟨leaves, h⟩
        cases hcell.symm.trans ((hread _).mpr ⟨hlt, leaves, h, rfl⟩)
      · rintro ⟨⟩
        cases he
      · rintro ⟨⟩
        cases he
  · rw [ofCell_of_le hle]
    refine ⟨iff_of_false ?_ fun h => absurd h.1 (not_lt.mpr hle), iff_of_true rfl hle, nofun⟩
    rintro ⟨_, ⟨⟩, he⟩
    cases he

/-- Two leaves below a fork, each of the three labels in another form. -/
theorem exists_fork : ∃ zero one root : Cell,
    Cell.ofBytes .ordinary [0xa0] 4 [] = .ok zero ∧ Cell.ofBytes .ordinary [0x50] 4 [] = .ok one ∧
      Cell.ofBytes .ordinary [0xc0] 5 [zero, one] = .ok root ∧ root.Made ∧
      Hashmap 2 root [([false, false], .empty), ([true, true], .empty)] := by
  obtain ⟨zero, one, root, hzero, hone, hroot⟩ : ∃ zero one root,
      Cell.ofBytes .ordinary [0xa0] 4 [] = .ok zero ∧
      Cell.ofBytes .ordinary [0x50] 4 [] = .ok one ∧
      Cell.ofBytes .ordinary [0xc0] 5 [zero, one] = .ok root := ⟨_, _, _, rfl, rfl, rfl⟩
  have hmz : zero.Made := .ofBytes (by simp) hzero
  have hmo : one.Made := .ofBytes (by simp) hone
  have hmr : root.Made := .ofBytes (by simpa using ⟨hmz, hmo⟩) hroot
  refine ⟨zero, one, root, hzero, hone, hroot, hmr, ?_⟩
  replace hzero := (Cell.ofBytes_eq_ok_iff.mp hzero).2
  replace hone := (Cell.ofBytes_eq_ok_iff.mp hone).2
  replace hroot := (Cell.ofBytes_eq_ok_iff.mp hroot).2
  have long : Label.Derives ([false] : Bits).length [false] [true, false, true, false] :=
    .long le_rfl
  have short : Label.Derives ([true] : Bits).length [true] [false, true, false, true] :=
    .short le_rfl
  have hbr : root.bits = [true, true, false, false, false] := Cell.bits_make hroot
  have same : Label.Derives (([] : Bits).length + 1 + 1) [] root.bits :=
    hbr ▸ .same false (Nat.zero_le _)
  have hz : Hashmap 1 zero [([false], .empty)] :=
    .leaf (Cell.kind_make hzero) long (Cell.bits_make hzero) (Cell.refs_make hzero) rfl
      Cell.made_empty
  have ho : Hashmap 1 one [([true], .empty)] :=
    .leaf (Cell.kind_make hone) short (Cell.bits_make hone) (Cell.refs_make hone) rfl
      Cell.made_empty
  exact .fork (Cell.kind_make hroot) same (Cell.refs_make hroot) hz ho

/-- The two leaves are read; the empty cell derives no dictionary, and there is no answer for keys
that are too long. -/
theorem ofCell_iff_hashmap_fork : (∃ zero one root,
    Cell.ofBytes .ordinary [0xa0] 4 [] = .ok zero ∧ Cell.ofBytes .ordinary [0x50] 4 [] = .ok one ∧
      Cell.ofBytes .ordinary [0xc0] 5 [zero, one] = .ok root ∧
      ofCell 2 root = .ok ⟨2, [(0, .empty), (3, .empty)]⟩) ∧
    (∃ e, ofCell 2 .empty = .error e ∧ e.isRefusal = true) ∧
    ofCell (2 ^ 63) .empty = .error .overflow := by
  refine ⟨?_, ?_, ?_⟩
  · obtain ⟨zero, one, root, hzero, hone, hroot, made, h⟩ := exists_fork
    exact ⟨zero, one, root, hzero, hone, hroot,
      ((ofCell_iff_hashmap made (by decide)).1 _).mpr ⟨by decide, _, h, rfl⟩⟩
  · refine (ofCell_iff_hashmap Cell.made_empty (by decide)).2.2.1.mpr ⟨by decide, ?_⟩
    rintro ⟨leaves, h⟩
    -- every label has a bit, and the empty cell has none
    obtain ⟨label, front, rest, hderives, hbits⟩ := h.exists_label
    have hfront := (List.append_eq_nil_iff.mp hbits.symm).1
    rw [hfront] at hderives
    cases hderives
  · exact (ofCell_iff_hashmap Cell.made_empty (by decide)).2.2.2.1.mpr le_rfl

end Dictionary

end BagOfCells
