import BagOfCells.Proofs.Bag.Exact
import BagOfCells.Proofs.Bag.Safety
import BagOfCells.Proofs.Cell.Height

/-!
# Which bags are accepted

A decoder gives roots exactly for the bags of the format whose records make cells: the bytes of each
record, with the cells it refers to, make a cell of its kind that shows the level mask of the record
and is no higher than the limit. A record that makes a cell with the hash of a later one stands for
that one, so the cells of a bag are told apart by their hashes.

## Main definitions

* `Bag.Denotes config own record later cell`: the cell that a record stands for
* `Bag.Builds config own records cells`: the cells that some records stand for

## Main results

* `Bag.recordCell_eq_ok_iff`, `Bag.assemble_eq_ok_iff`: the cell of a record, and of all records
* `Bag.decode_eq_ok_iff`: the bags that are accepted, and their roots
-/

namespace BagOfCells.Bag

open Cell Outcome

/-- The cell that record `own` stands for, given the cells of the later records. -/
def Denotes (config : Config) (own : Nat) (record : Record) (later : List Cell) (cell : Cell) :
    Prop :=
  -- the first of the later cells is that of record `own + 1`
  ∃ refs made, record.refs.map (later[· - own - 1]?) = refs.map some ∧
    Cell.make record.kind ((Bits.ofBytes record.data).take record.bits) refs = .ok made ∧
    made.mask = record.mask ∧ made.height ≤ config.maxDepth ∧
    -- a later cell with the hash of the one that is made takes its place
    (cell = made ∧ (∀ other ∈ later, other.hash ≠ made.hash) ∨
      cell ∈ later ∧ cell.hash = made.hash)

/-- The cells that some records stand for, the first of which has number `own`. -/
structure Builds (config : Config) (own : Nat) (records : List Record) (cells : List Cell) :
    Prop where
  length_eq : cells.length = records.length
  denotes : ∀ i record cell, records[i]? = some record → cells[i]? = some cell →
    Denotes config (own + i) record (cells.drop (i + 1)) cell

section

variable {config : Config} {own : Nat} {record : Record} {later : List Cell} {cell : Cell}

/-- **A shared cell** is that of its hash among the later ones, or else a new one. -/
theorem share_eq_iff {made : Cell} (inj : Set.InjOn Cell.hash {x | x ∈ later}) :
    share later made = cell ↔
      cell = made ∧ (∀ other ∈ later, other.hash ≠ made.hash) ∨
        cell ∈ later ∧ cell.hash = made.hash := by
  unfold share
  cases h : later.find? (· == made) with
  | none =>
    have hnone : ∀ other ∈ later, other.hash ≠ made.hash := by
      intro other hother heq
      exact List.find?_eq_none.mp h other hother (beq_iff.mpr heq)
    constructor
    · rintro rfl
      exact .inl ⟨rfl, hnone⟩
    · rintro (⟨rfl, -⟩ | ⟨hmem, heq⟩)
      · rfl
      · exact absurd heq (hnone cell hmem)
  | some x =>
    have hx := List.mem_of_find?_eq_some h
    have hhash : x.hash = made.hash := beq_iff.mp (List.find?_some (p := (· == made)) h)
    constructor
    · rintro rfl
      exact .inr ⟨hx, hhash⟩
    · rintro (⟨-, hnone⟩ | ⟨hmem, heq⟩)
      · exact absurd hhash (hnone x hx)
      · exact inj hx hmem (hhash.trans heq.symm)

/-- Steps that succeed where lookups do. -/
theorem mapM_eq_ok_iff_map {α β : Type} {f : α → Except CellError β} {g : α → Option β}
    {as : List α} {bs : List β} (h : ∀ a ∈ as, ∀ b, f a = .ok b ↔ g a = some b) :
    as.mapM f = .ok bs ↔ as.map g = bs.map some := by
  rw [mapM_eq_ok_iff]
  induction as generalizing bs with
  | nil => cases bs <;> simp
  | cons a as ih =>
    obtain ⟨ha, has⟩ := List.forall_mem_cons.mp h
    cases bs with
    | nil => simp
    | cons b bs => simp [List.forall₂_cons, ha, ih has]

theorem laterCell_eq_ok_iff {target : Nat} {ref : Cell} (h : own < target) :
    laterCell later own target = .ok ref ↔ later[target - own - 1]? = some ref := by
  rw [laterCell, if_neg (by omega), Checked.item_eq_ok_iff]

/-- **The cell of a record** is made of its bytes and the cells it refers to. -/
theorem recordCell_eq_ok_iff {cells : Nat} (hr : Readable cells own record)
    (made : ∀ x ∈ later, Made x) (inj : Set.InjOn Cell.hash {x | x ∈ later}) :
    recordCell config own record later = .ok cell ↔ Denotes config own record later cell := by
  have hrefs (refs : List Cell) : record.refs.mapM (laterCell later own) = .ok refs ↔
      record.refs.map (later[· - own - 1]?) = refs.map some :=
    mapM_eq_ok_iff_map fun target ht _ => laterCell_eq_ok_iff (hr.refs target ht).1
  -- the depth of what is made of made cells is its height
  have hdepth {refs : List Cell} {fresh : Cell}
      (h : record.refs.map (later[· - own - 1]?) = refs.map some)
      (hmake : Cell.make record.kind ((Bits.ofBytes record.data).take record.bits) refs =
        .ok fresh) : fresh.depth = fresh.height := by
    refine (made_iff.mpr ⟨sound_of_make hmake, ?_⟩).depth_eq
    rw [refs_make hmake]
    intro ref href
    have hmem : some ref ∈ record.refs.map (later[· - own - 1]?) := h ▸ List.mem_map_of_mem href
    obtain ⟨target, -, ht⟩ := List.mem_map.mp hmem
    exact made ref (List.mem_of_getElem? ht)
  unfold recordCell Denotes
  simp only [bind_eq_ok_iff, hrefs, ofBytes_eq_ok_iff, ← share_eq_iff inj]
  constructor
  · rintro ⟨refs, hmap, fresh, ⟨-, hmake⟩, h⟩
    split at h
    · cases h
    · next hmask =>
      split at h
      · cases h
      · next hheight =>
        cases h
        rw [not_not] at hmask
        exact ⟨refs, fresh, hmap, hmake, hmask, hdepth hmap hmake ▸ Nat.le_of_not_lt hheight, rfl⟩
  · rintro ⟨refs, fresh, hmap, hmake, hmask, hheight, rfl⟩
    rw [← hdepth hmap hmake] at hheight
    refine ⟨refs, hmap, fresh, ⟨hr.data_le, hmake⟩, ?_⟩
    rw [if_neg (not_not.mpr hmask), if_neg (Nat.not_lt.mpr hheight)]
    rfl

theorem builds_cons_iff {records : List Record} {cells : List Cell} :
    Builds config own (record :: records) cells ↔ ∃ cell later, cells = cell :: later ∧
      Denotes config own record later cell ∧ Builds config (own + 1) records later := by
  constructor
  · rintro ⟨hl, h⟩
    obtain ⟨cell, later, rfl⟩ := List.exists_cons_of_length_eq_add_one hl
    refine ⟨cell, later, rfl, h 0 record cell rfl rfl, Nat.succ.inj hl, fun i r c hr hc => ?_⟩
    rw [Nat.add_assoc, Nat.add_comm 1]
    exact h (i + 1) r c hr hc
  · rintro ⟨cell, later, rfl, hcell, hl, h⟩
    refine ⟨congrArg Nat.succ hl, fun i r c hr hc => ?_⟩
    rcases i with _ | i
    · cases hr
      cases hc
      exact hcell
    · rw [← Nat.add_assoc, Nat.add_right_comm]
      exact h i r c hr hc

/-- What takes the place of a record keeps the cells told apart by their hashes. -/
theorem Denotes.injOn (h : Denotes config own record later cell)
    (inj : Set.InjOn Cell.hash {x | x ∈ later}) : Set.InjOn Cell.hash {x | x ∈ cell :: later} := by
  obtain ⟨-, made, -, -, -, -, h⟩ := h
  have hsame : ∀ x ∈ later, x.hash = cell.hash → x = cell := by
    rcases h with ⟨rfl, hnone⟩ | ⟨hmem, -⟩
    · exact fun x hx heq => absurd heq (hnone x hx)
    · exact fun x hx heq => inj hx hmem heq
  intro a ha b hb heq
  rcases List.mem_cons.mp ha with rfl | ha' <;> rcases List.mem_cons.mp hb with rfl | hb'
  · rfl
  · exact (hsame b hb' heq.symm).symm
  · exact hsame a ha' heq
  · exact inj ha' hb' heq

/-- **The cells of records** are made one after the other, from the last one on. -/
theorem assemble_eq_ok_iff {count : Nat} {records : List Record} (hf : Forward count own records)
    {cells : List Cell} :
    assemble config own records = .ok cells ↔ Builds config own records cells := by
  -- along with the cells, the induction yields that their hashes tell them apart
  suffices h : ∀ cells, (assemble config own records = .ok cells ↔
      Builds config own records cells) ∧
      (Builds config own records cells → Set.InjOn Cell.hash {x | x ∈ cells}) from (h cells).1
  induction records generalizing own with
  | nil =>
    intro cells
    have hnil : Builds config own [] cells ↔ cells = [] :=
      ⟨fun h => List.length_eq_zero_iff.mp h.length_eq, fun h => h ▸ ⟨rfl, nofun⟩⟩
    rw [hnil]
    refine ⟨?_, ?_⟩
    · simp [assemble, eq_comm]
    · rintro rfl a ha
      cases ha
  | cons record records ih =>
    intro cells
    have ih := ih hf.2
    simp only [builds_cons_iff, assemble_cons, bind_eq_ok_iff, Except.ok.injEq]
    constructor
    · constructor
      · rintro ⟨later, hlater, cell, hcell, rfl⟩
        have hbuilds := (ih later).1.mp hlater
        exact ⟨cell, later, rfl, (recordCell_eq_ok_iff hf.1 (made_assemble hlater)
          ((ih later).2 hbuilds)).mp hcell, hbuilds⟩
      · rintro ⟨cell, later, rfl, hcell, hbuilds⟩
        have hlater := (ih later).1.mpr hbuilds
        exact ⟨later, hlater, cell, (recordCell_eq_ok_iff hf.1 (made_assemble hlater)
          ((ih later).2 hbuilds)).mpr hcell, rfl⟩
    · rintro ⟨cell, later, rfl, hcell, hbuilds⟩
      exact hcell.injOn ((ih later).2 hbuilds)

end

theorem Record.Legal.readable {cells own : Nat} {record : Record} (h : record.Legal cells own) :
    Readable cells own record where
  bits_le := h.bits_le
  refs_le := h.refs_le
  data_le := by
    rcases h.closed with hfull | htag
    · omega
    · have := htag.length_bounds
      omega
  refs := h.refs

theorem forward_of_legal {cells own : Nat} {records : List Record}
    (hl : own + records.length = cells)
    (h : ∀ i (record : Record), records[i]? = some record → record.Legal cells (own + i)) :
    Forward cells own records := by
  induction records generalizing own with
  | nil => exact hl
  | cons record records ih =>
    obtain ⟨hrecord, hrecords⟩ := forall_getElem?_cons.mp h
    refine ⟨hrecord.readable, ih ?_ fun i x hx => ?_⟩
    · rw [← hl, List.length_cons]
      omega
    · rw [Nat.add_assoc, Nat.add_comm 1]
      exact hrecords i x hx

/-- The records of a legal bag keep within it. -/
theorem Source.Legal.forward {config : Config} {source : Source} (h : source.Legal config) :
    Forward source.header.cells 0 source.records := by
  refine forward_of_legal ((Nat.zero_add _).trans h.cells) fun i record hi => ?_
  rw [Nat.zero_add]
  exact h.records i record hi

/-- What is read of an accepted bag, and made of it. -/
theorem exists_of_decode {config : Config} {data : Bytes} {roots : List Cell}
    (h : decode config data = .ok roots) :
    ∃ (source : Source) (cells : List Cell), source.Legal config ∧ data = source.bytes ∧
      readBag config data ⟨data, 0⟩ =
        .ok (source.header, source.records) ⟨[], data.length⟩ ∧
      assemble config 0 source.records = .ok cells ∧
      source.header.roots.mapM (Checked.item cells) = .ok roots := by
  cases hread : readBag config data ⟨data, 0⟩ with
  | error e after =>
    unfold decode at h
    rw [hread] at h
    cases h
  | ok result after =>
    obtain ⟨header, records⟩ := result
    obtain ⟨entries, trailer, hlegal, rfl⟩ := legal_of_readBag hread
    rw [decode_of_readBag hread, bind_eq_ok_iff] at h
    obtain ⟨cells, hcells, hroots⟩ := h
    have hread' := readBag_of_legal hlegal
    rw [hread] at hread'
    exact ⟨⟨header, entries, records, trailer⟩, cells, hlegal, rfl, hread', hcells, hroots⟩

/-- **Accepted bags.** A decoder gives some roots exactly if the bytes are those of a bag of the
format within the limits, whose records stand for cells, and the roots are the cells it names. -/
theorem decode_eq_ok_iff (config : Config) (data : Bytes) (roots : List Cell) :
    decode config data = .ok roots ↔ ∃ source : Source, source.Legal config ∧ data = source.bytes ∧
      ∃ cells, Builds config 0 source.records cells ∧
        source.header.roots.map (cells[·]?) = roots.map some := by
  have hroots (header : Header) (cells : List Cell) :
      header.roots.mapM (Checked.item cells) = .ok roots ↔
        header.roots.map (cells[·]?) = roots.map some :=
    mapM_eq_ok_iff_map fun _ _ _ => Checked.item_eq_ok_iff
  constructor
  · intro h
    obtain ⟨source, cells, hlegal, hdata, -, hcells, h⟩ := exists_of_decode h
    exact ⟨source, hlegal, hdata, cells, (assemble_eq_ok_iff hlegal.forward).mp hcells,
      (hroots source.header cells).mp h⟩
  · rintro ⟨source, hlegal, rfl, cells, hbuilds, h⟩
    rw [decode_of_readBag (readBag_of_legal hlegal), bind_eq_ok_iff]
    exact ⟨cells, (assemble_eq_ok_iff hlegal.forward).mpr hbuilds,
      (hroots source.header cells).mpr h⟩

-- the empty cell with an index, of whose entry the free bit is set
example : decode {} [0xb5, 0xee, 0x9c, 0x72, 0xa1, 1, 1, 1, 0, 2, 0, 5, 0, 0] = .ok [Cell.empty] :=
  rfl

end BagOfCells.Bag
