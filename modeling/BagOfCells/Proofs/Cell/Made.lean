import BagOfCells.Proofs.Bits
import BagOfCells.Proofs.Bytes
import BagOfCells.Proofs.Cell.LevelHash
import Mathlib.Logic.Relation

/-!
# Made cells

Cells are made from the leaves upwards. A made cell keeps its limits, suits its kind, and shows at
each level the hash and depth that its parts determine; it is the only cell of its parts. Its hash
at a level is the digest of one message, unless it is stored in a pruned branch.

## Main definitions

* `Cell.Sound`: what a made cell satisfies
* `Cell.message`: what is hashed at a significant level
* `Cell.Made`: a cell made from made cells
* `Cell.Reaches`, `Cell.reachable`: the cells below a cell, itself included, and below some cells

## Main results

* `Cell.make_eq_ok_iff_sound`: making a cell, and what it satisfies
* `Cell.make_eq_error_iff`: when there is neither a cell nor a refusal
* `Cell.Sound.get_eq`, `Cell.Sound.depthAt_le`: the hash and depth at every level
* `Cell.Made.reaches`: the cells below a made cell are made
* `Cell.ofBytes_levels`: the levels of every cell that is made
-/

namespace BagOfCells.Cell

open Outcome

/-- What a made cell satisfies. -/
structure Sound (cell : Cell) : Prop where
  bits_le : cell.bits.length ≤ maxBits
  refs_le : cell.refs.length ≤ maxRefs
  begins : Layout.BeginsWith cell.kind cell.bits
  suits : Layout.Suits cell.bits cell.refs cell.mask cell.kind
  shallow : ¬ Overdeep cell.kind cell.mask cell.refs
  get_hashes : ∀ level,
    cell.hashes.get level = hashAtLevel cell.kind cell.mask cell.bits cell.refs level

section Make

variable {kind : CellKind} {bits : Bits} {refs : List Cell} {cell : Cell}

/-- **Making a cell** gives the one sound cell of its parts. -/
theorem make_eq_ok_iff_sound :
    make kind bits refs = .ok cell ↔
      cell.kind = kind ∧ cell.bits = bits ∧ cell.refs = refs ∧ cell.Sound := by
  rw [make_eq_ok_iff]
  constructor
  · rintro ⟨hb, hr, mask, hashes, hm, hh, rfl⟩
    obtain ⟨hbegin, hsuits⟩ := Layout.mask_eq_ok_iff.mp hm
    obtain ⟨hn, hg⟩ := (computeHashes_eq_ok_iff hsuits hr).mp hh
    exact ⟨rfl, rfl, rfl, ⟨hb, hr, hbegin, hsuits, hn, hg⟩⟩
  · rintro ⟨rfl, rfl, rfl, h⟩
    refine ⟨h.bits_le, h.refs_le, cell.mask, cell.hashes,
      Layout.mask_eq_ok_iff.mpr ⟨h.begins, h.suits⟩,
      (computeHashes_eq_ok_iff h.suits h.refs_le).mpr ⟨h.shallow, h.get_hashes⟩, ?_⟩
    cases cell
    rfl

theorem make_of_sound (h : cell.Sound) : make cell.kind cell.bits cell.refs = .ok cell :=
  make_eq_ok_iff_sound.mpr ⟨rfl, rfl, rfl, h⟩

theorem sound_of_make (h : make kind bits refs = .ok cell) : cell.Sound :=
  (make_eq_ok_iff_sound.mp h).2.2.2

/-- Sound cells of the same kind, bits and references are one cell. -/
theorem Sound.eq {a b : Cell} (ha : a.Sound) (hb : b.Sound) (hk : a.kind = b.kind)
    (hbits : a.bits = b.bits) (hrefs : a.refs = b.refs) : a = b := by
  have h := make_of_sound hb
  rw [← hk, ← hbits, ← hrefs, make_of_sound ha] at h
  exact Except.ok.inj h

theorem checkLimits_eq (b r : Nat) :
    checkLimits b r = if maxBits < b then .error (.bits b maxBits)
      else if maxRefs < r then .error (.refs r maxRefs) else .ok () := by
  unfold checkLimits
  split <;> rfl

theorem checkLimits_eq_ok_iff {b r : Nat} {u : Unit} :
    checkLimits b r = .ok u ↔ b ≤ maxBits ∧ r ≤ maxRefs := by
  rw [checkLimits_eq]
  split
  · simp; omega
  · split <;> simp <;> omega

theorem isRefusal_of_checkLimits {b r : Nat} {e : CellError} (h : checkLimits b r = .error e) :
    e.isRefusal = true := by
  rw [checkLimits_eq] at h
  split at h
  · cases h
    rfl
  · split at h <;> cases h
    rfl

theorem ofBytes_eq_ok_iff {data : Bytes} {count : Nat} :
    ofBytes kind data count refs = .ok cell ↔
      (count + 7) / 8 ≤ data.length ∧
        make kind ((Bits.ofBytes data).take count) refs = .ok cell := by
  unfold ofBytes
  simp only [bind_eq_ok_iff, checkLimits_eq_ok_iff, Layout.require_eq_ok_iff, exists_const,
    decide_eq_true_eq]
  refine ⟨And.right, ?_⟩
  rintro ⟨hl, h⟩
  refine ⟨?_, hl, h⟩
  -- the limits are checked again when the cell is made
  obtain ⟨hb, hr, -⟩ := make_eq_ok_iff.mp h
  rw [List.length_take, Bits.length_ofBytes, Nat.min_eq_left (by omega)] at hb
  exact ⟨hb, hr⟩

/-- **There is no cell and no refusal** only where some depth leaves two bytes. -/
theorem make_eq_error_iff {e : CellError} (he : e.isRefusal = false) :
    make kind bits refs = .error e ↔
      bits.length ≤ maxBits ∧ refs.length ≤ maxRefs ∧ ∃ mask,
        Layout.mask kind bits refs = .ok mask ∧ Overdeep kind mask refs ∧ e = .overflow := by
  unfold make
  simp only [bind_eq_error_iff, checkLimits_eq_ok_iff, pure_ne_error, and_false, exists_false,
    or_false]
  constructor
  · rintro (h | ⟨-, ⟨hb, hr⟩, h | ⟨mask, hm, h⟩⟩)
    · rw [isRefusal_of_checkLimits h] at he
      cases he
    · obtain ⟨fault, rfl⟩ := Layout.mask_eq_error h
      cases he
    · rw [computeHashes_eq_error_iff (Layout.mask_eq_ok_iff.mp hm).2 hr] at h
      exact ⟨hb, hr, mask, hm, h⟩
  · rintro ⟨hb, hr, mask, hm, h⟩
    rw [← computeHashes_eq_error_iff (Layout.mask_eq_ok_iff.mp hm).2 hr] at h
    exact .inr ⟨(), ⟨hb, hr⟩, .inr ⟨mask, hm, h⟩⟩

/-- Parts with a level mask make a cell, unless some depth leaves two bytes. -/
theorem make_or_overdeep {kind : CellKind} {bits : Bits} {refs : List Cell} {mask : LevelMask}
    (hb : bits.length ≤ maxBits) (hr : refs.length ≤ maxRefs)
    (hm : Layout.mask kind bits refs = .ok mask) :
    (∃ cell, make kind bits refs = .ok cell ∧ cell.mask = mask) ∨
      make kind bits refs = .error .overflow ∧ Overdeep kind mask refs := by
  cases hh : computeHashes kind mask bits refs with
  | ok hashes => exact .inl ⟨_, make_eq_ok_iff.mpr ⟨hb, hr, mask, hashes, hm, hh, rfl⟩, rfl⟩
  | error e =>
    have ho := ((computeHashes_eq_error_iff (Layout.mask_eq_ok_iff.mp hm).2 hr).mp hh).1
    exact .inr ⟨(make_eq_error_iff rfl).mpr ⟨hb, hr, mask, hm, ho, rfl⟩, ho⟩

/-- Any parts within the limits make an ordinary cell, unless some depth leaves two bytes. -/
theorem make_ordinary_or_overdeep {bits : Bits} {refs : List Cell} (hb : bits.length ≤ maxBits)
    (hr : refs.length ≤ maxRefs) :
    (∃ cell, make .ordinary bits refs = .ok cell ∧ cell.mask = Layout.ordinaryMask refs) ∨
      make .ordinary bits refs = .error .overflow ∧
        Overdeep .ordinary (Layout.ordinaryMask refs) refs :=
  make_or_overdeep hb hr (Layout.mask_eq_ok_iff.mpr ⟨nofun, rfl⟩)

/-- **A cell from bytes** is neither made nor refused only where some depth leaves two bytes. -/
theorem ofBytes_eq_error_iff (kind : CellKind) (data : Bytes) (count : Nat) (refs : List Cell)
    {e : CellError} (he : e.isRefusal = false) :
    ofBytes kind data count refs = .error e ↔
      count ≤ maxBits ∧ refs.length ≤ maxRefs ∧ (count + 7) / 8 ≤ data.length ∧
        (∃ mask, Layout.mask kind ((Bits.ofBytes data).take count) refs = .ok mask ∧
          Overdeep kind mask refs) ∧ e = .overflow := by
  have hlen (h : (count + 7) / 8 ≤ data.length) :
      ((Bits.ofBytes data).take count).length = count := by
    rw [List.length_take, Bits.length_ofBytes]
    omega
  unfold ofBytes
  simp only [bind_eq_error_iff, checkLimits_eq_ok_iff, Layout.require_eq_ok_iff,
    Layout.require_eq_error_iff, exists_const, decide_eq_true_eq, make_eq_error_iff he]
  constructor
  · rintro (h | ⟨⟨hb, hr⟩, h | ⟨hl, -, -, mask, hm, ho, heq⟩⟩)
    · rw [isRefusal_of_checkLimits h] at he
      cases he
    · rw [h.2] at he
      cases he
    · exact ⟨hb, hr, hl, ⟨mask, hm, ho⟩, heq⟩
  · rintro ⟨hb, hr, hl, ⟨mask, hm, ho⟩, heq⟩
    exact .inr ⟨⟨hb, hr⟩, .inr ⟨hl, (hlen hl).symm ▸ hb, hr, mask, hm, ho, heq⟩⟩

theorem ofBytes_data (h : cell.Sound) :
    ofBytes cell.kind cell.data cell.bits.length cell.refs = .ok cell := by
  rw [ofBytes_eq_ok_iff, data, Bits.length_pack, Bits.take_ofBytes_pack]
  exact ⟨le_rfl, make_of_sound h⟩

end Make

/-! ## The levels of a cell -/

/-- The bytes in the place of the data at a significant level: the tagged data at level 0 and in a
pruned branch, otherwise the hash of the significant level below. -/
def body (cell : Cell) (level : Nat) : Bytes :=
  if level = 0 ∨ cell.kind = .prunedBranch then cell.tagged
  else (cell.hashAt (cell.mask.floor (level - 1))).bytes

/-- The first descriptor at a level. -/
def descriptorAt (cell : Cell) (level : Nat) : UInt8 :=
  UInt8.ofNat (refsDescriptor cell.refs.length cell.isExotic (cell.mask.upTo level))

/-- What is hashed at a significant level of a cell. -/
def message (cell : Cell) (level : Nat) : Bytes :=
  preimage (cell.descriptorAt level) (bitsDescriptorByte cell.bits.length) (cell.body level)
    cell.refs (childLevel cell.kind level)

section Levels

variable {cell : Cell} {level : Nat}

/-- **The hash and depth at a level**, unless they are stored in a pruned branch. -/
theorem Sound.get_eq (h : cell.Sound)
    (hp : ¬ (cell.kind = .prunedBranch ∧ cell.mask.upTo level ≠ cell.mask)) :
    cell.hashAt level = sha256 (cell.message (cell.mask.floor level)) ∧
      cell.depthAt level =
        depthOver cell.refs (childLevel cell.kind (cell.mask.floor level)) := by
  unfold hashAt depthAt message body
  by_cases hk : cell.kind = .prunedBranch
  · -- its highest level is the only one left, and is hashed over the data
    have hl : cell.mask.upTo level = cell.mask := by simpa [hk] using hp
    rw [h.get_hashes, hashAtLevel, if_pos hk, if_pos hl, if_pos (.inr hk),
      LevelMask.floor_of_level_le (LevelMask.upTo_eq_self_iff.mp hl)]
    exact ⟨rfl, rfl⟩
  · rw [h.get_hashes, hashAtLevel, if_neg hk, ← atLevel_floor]
    -- at level 0 the recursion hashes the data, above it the hash below
    generalize hs : cell.mask.floor level = s
    cases s with
    | zero =>
      rw [if_pos (.inl rfl)]
      exact ⟨rfl, rfl⟩
    | succ s =>
      have hsig : cell.mask.isSignificant (s + 1) = true := hs ▸ LevelMask.isSignificant_floor ..
      rw [atLevel_succ_of_isSignificant hsig, if_neg (by simp [hk]), Nat.add_sub_cancel, hashAt,
        h.get_hashes, hashAtLevel, if_neg hk, atLevel_floor]
      exact ⟨rfl, rfl⟩

/-- The hash and depth at a level below the highest of a pruned branch are stored. -/
theorem Sound.get_stored (h : cell.Sound) (hk : cell.kind = .prunedBranch)
    (hl : cell.mask.upTo level ≠ cell.mask) :
    cell.hashes.get level =
      Layout.storedHash cell.mask cell.data (cell.mask.upTo level).count := by
  rw [h.get_hashes, hashAtLevel, if_pos hk, if_neg hl, data]

theorem digest_eq {a b : Digest} (h : a.bytes = b.bytes) : a = b := by
  cases a
  cases b
  cases h
  rfl

theorem bytes_ofBytes {bytes : Bytes} (h : bytes.length = 32) :
    (Digest.ofBytes bytes).bytes = bytes := by
  simp only [Digest.ofBytes, h, Nat.sub_self, List.replicate_zero, List.append_nil]
  rw [← h, List.take_length]

theorem Sound.stored (h : cell.Sound) (hk : cell.kind = .prunedBranch)
    (hl : cell.mask.upTo level ≠ cell.mask) :
    (cell.hashAt level).bytes =
        (cell.data.drop (2 + 32 * (cell.mask.upTo level).count)).take 32 ∧
      cell.depthAt level = Bytes.toNat ((cell.data.drop
        (2 + 32 * cell.mask.count + 2 * (cell.mask.upTo level).count)).take 2) := by
  have hd : cell.data.length = 2 + 34 * cell.mask.count := by
    have hs := h.suits
    rw [hk] at hs
    rw [data, Bits.length_pack, hs.2.2.1, Layout.hashAndDepthBits]
    omega
  have hc : (cell.mask.upTo level).count < cell.mask.count :=
    LevelMask.count_upTo_lt (by rwa [ne_eq, LevelMask.upTo_eq_self_iff, not_le] at hl)
  rw [hashAt, depthAt, h.get_stored hk hl]
  exact ⟨bytes_ofBytes (by rw [List.length_take, List.length_drop]; omega), rfl⟩

/-- The hash at a significant level of a cell that is no pruned branch. -/
theorem Sound.hashAt_eq (h : cell.Sound) (hk : cell.kind ≠ .prunedBranch)
    (hs : cell.mask.isSignificant level = true) :
    cell.hashAt level = sha256 (cell.message level) := by
  rw [(h.get_eq fun hp => hk hp.1).1, LevelMask.floor_of_isSignificant hs]

/-- No depth leaves two bytes. -/
theorem Sound.depthAt_le (h : cell.Sound) (level : Nat) : cell.depthAt level ≤ maxDepth := by
  by_cases hp : cell.kind = .prunedBranch ∧ cell.mask.upTo level ≠ cell.mask
  · -- a stored depth is a number of two bytes
    rw [(h.stored hp.1 hp.2).2]
    refine Nat.le_of_lt_succ ((Bytes.toNat_lt _).trans_le ?_)
    exact (Nat.pow_le_pow_right (by omega) (List.length_take_le 2 _)).trans (by decide)
  · rw [(h.get_eq hp).2]
    by_contra hd
    exact h.shallow (overdeep_iff.mpr ⟨_, LevelMask.isSignificant_floor .., Nat.lt_of_not_le hd⟩)

/-- **The depth** at a level of a cell that is no pruned branch. -/
theorem Sound.depthAt_eq (h : cell.Sound) (hk : cell.kind ≠ .prunedBranch) :
    cell.depthAt level = depthOver cell.refs (childLevel cell.kind (cell.mask.floor level)) :=
  (h.get_eq fun hp => hk hp.1).2

/-- **An ordinary cell** is made over the references of another one, whatever the bits, and is as
deep. -/
theorem Sound.exists_make_ordinary (h : cell.Sound) (hk : cell.kind = .ordinary) {bits : Bits}
    (hb : bits.length ≤ maxBits) :
    ∃ other, make .ordinary bits cell.refs = .ok other ∧
      ∀ level, other.depthAt level = cell.depthAt level := by
  have hmask : cell.mask = Layout.ordinaryMask cell.refs := by
    have hs := h.suits
    rwa [hk] at hs
  have hm : Layout.mask .ordinary bits cell.refs = .ok cell.mask :=
    Layout.mask_eq_ok_iff.mpr ⟨nofun, hmask⟩
  rcases make_or_overdeep hb h.refs_le hm with ⟨other, hmake, hother⟩ | ⟨-, ho⟩
  · refine ⟨other, hmake, fun level => ?_⟩
    have hok := kind_make hmake
    rw [(sound_of_make hmake).depthAt_eq (by simp [hok]), h.depthAt_eq (by simp [hk]), hok, hk,
      hother, refs_make hmake]
  · exact absurd (hk ▸ ho) h.shallow

/-- **The depth over ordinary cells** is read off them at the level itself. -/
theorem Sound.depthAt_over_ordinary (h : cell.Sound) (hk : cell.kind = .ordinary)
    (hrefs : ∀ ref ∈ cell.refs, ref.Sound ∧ ref.kind = .ordinary) (level : Nat) :
    cell.depthAt level = depthOver cell.refs level := by
  have hmask : cell.mask = Layout.ordinaryMask cell.refs := by
    have hs := h.suits
    rwa [hk] at hs
  have hsame : cell.refs.map (·.depthAt (cell.mask.floor level)) =
      cell.refs.map (·.depthAt level) := by
    apply List.map_congr_left
    intro ref href
    obtain ⟨hs, hrk⟩ := hrefs ref href
    -- the levels of the reference are levels of the cell
    have hfloor : ref.mask.floor (cell.mask.floor level) = ref.mask.floor level :=
      hmask ▸ LevelMask.floor_floor (Layout.isSignificant_ordinaryMask href) level
    rw [hs.depthAt_eq (by simp [hrk]), hs.depthAt_eq (by simp [hrk]), hfloor]
  rw [h.depthAt_eq (by simp [hk]), hk, depthOver, depthOver]
  exact congrArg (fun depths => if cell.refs = [] then 0 else 1 + List.foldr max 0 depths) hsame

/-- Beyond the level of its mask a cell shows its top hash and depth. -/
theorem Sound.get_top (h : cell.Sound) (hl : cell.level ≤ level) :
    cell.hashAt level = cell.hash ∧ cell.depthAt level = cell.depth := by
  have hu (n : Nat) (hn : cell.level ≤ n) :
      ¬ (cell.kind = .prunedBranch ∧ cell.mask.upTo n ≠ cell.mask) :=
    fun hp => hp.2 (LevelMask.upTo_eq_self_iff.mpr hn)
  have h3 : cell.level ≤ LevelMask.maxLevel := cell.mask.level_le
  rw [hash, depth, (h.get_eq (hu _ hl)).1, (h.get_eq (hu _ hl)).2, (h.get_eq (hu _ h3)).1,
    (h.get_eq (hu _ h3)).2, LevelMask.floor_of_level_le hl, LevelMask.floor_of_level_le h3]
  exact ⟨rfl, rfl⟩

/-- The top hash and depth of a cell. -/
theorem Sound.top_eq (h : cell.Sound) :
    cell.hash = sha256 (cell.message cell.level) ∧
      cell.depth = depthOver cell.refs (childLevel cell.kind cell.level) := by
  have hu : ¬ (cell.kind = .prunedBranch ∧ cell.mask.upTo cell.level ≠ cell.mask) :=
    fun hp => hp.2 (LevelMask.upTo_eq_self_iff.mpr le_rfl)
  have hf : cell.mask.floor cell.level = cell.level := LevelMask.floor_of_level_le le_rfl
  rw [← (h.get_top le_rfl).1, ← (h.get_top le_rfl).2, (h.get_eq hu).1, (h.get_eq hu).2, hf]
  exact ⟨rfl, rfl⟩

/-- A cell is deeper than the cells it refers to. -/
theorem Sound.depth_lt (h : cell.Sound) {ref : Cell} (href : ref ∈ cell.refs) (hr : ref.Sound) :
    ref.depth < cell.depth := by
  rw [h.top_eq.2, ← (hr.get_top (h.suits.level_le href)).2, depthOver,
    if_neg (List.ne_nil_of_mem href), Nat.add_comm, Nat.lt_succ_iff]
  -- a child of depth 0 may be less deep than the deepest one
  rcases Nat.eq_zero_or_pos (ref.depthAt (childLevel cell.kind cell.mask.level)) with hz | hpos
  · rw [hz]
    exact Nat.zero_le _
  · exact (le_foldr_max_iff hpos).mpr ⟨_, List.mem_map_of_mem href, le_rfl⟩

end Levels

/-! ## Cells below a cell -/

/-- A cell made from made cells. -/
inductive Made : Cell → Prop where
  /-- A cell is made of its kind, bytes, count of bits and made references. -/
  | ofBytes {kind : CellKind} {data : Bytes} {count : Nat} {refs : List Cell} {cell : Cell}
      (made : ∀ ref ∈ refs, Made ref) (h : ofBytes kind data count refs = .ok cell) : Made cell

/-- The cells below a cell, itself included. -/
def Reaches : Cell → Cell → Prop :=
  Relation.ReflTransGen fun parent child => child ∈ parent.refs

/-- The cells below some cells, themselves included. -/
def reachable (roots : List Cell) : Set Cell :=
  {cell | ∃ root ∈ roots, Reaches root cell}

/-- What holds of a cell when it holds of its references holds of every cell. -/
@[elab_as_elim]
theorem induction_refs {motive : Cell → Prop}
    (step : ∀ cell, (∀ ref ∈ cell.refs, motive ref) → motive cell) : ∀ cell, motive cell
  | .mk _ _ refs _ _ => step _ fun ref _ => induction_refs step ref
termination_by cell => cell
decreasing_by
  have hlt : sizeOf ref < sizeOf refs := List.sizeOf_lt_of_mem ‹_›
  simp only [mk.sizeOf_spec]
  omega

theorem made_iff {cell : Cell} : Made cell ↔ cell.Sound ∧ ∀ ref ∈ cell.refs, Made ref := by
  constructor
  · rintro ⟨made, h⟩
    obtain ⟨-, h⟩ := ofBytes_eq_ok_iff.mp h
    exact ⟨sound_of_make h, refs_make h ▸ made⟩
  · rintro ⟨h, made⟩
    exact .ofBytes made (ofBytes_data h)

theorem made_empty : Made .empty :=
  have h : Cell.ofBytes .ordinary [] 0 [] = .ok .empty := rfl
  .ofBytes (by simp) h

theorem Made.sound {cell : Cell} (h : Made cell) : cell.Sound :=
  (made_iff.mp h).1

theorem Made.refs {cell ref : Cell} (h : Made cell) (href : ref ∈ cell.refs) : Made ref :=
  (made_iff.mp h).2 ref href

theorem reaches_iff {parent cell : Cell} :
    Reaches parent cell ↔ cell = parent ∨ ∃ ref ∈ parent.refs, Reaches ref cell := by
  rw [Reaches, Relation.ReflTransGen.cases_head_iff, eq_comm]

/-- **The cells below** a made cell are made. -/
theorem Made.reaches {parent cell : Cell} (h : Made parent) (hr : Reaches parent cell) :
    Made cell := by
  induction hr with
  | refl => exact h
  | tail _ href ih => exact ih.refs href

theorem Made.depth_le {parent cell : Cell} (h : Made parent) (hr : Reaches parent cell) :
    cell.depth ≤ parent.depth := by
  induction hr with
  | refl => exact le_rfl
  | tail hp href ih =>
    have hm := h.reaches hp
    exact (hm.sound.depth_lt href (hm.refs href).sound).le.trans ih

section Reachable

variable {roots : List Cell} {cell ref : Cell}

theorem reachable_self (h : cell ∈ roots) : cell ∈ reachable roots :=
  ⟨cell, h, .refl⟩

theorem reachable_ref (h : cell ∈ reachable roots) (href : ref ∈ cell.refs) :
    ref ∈ reachable roots := by
  obtain ⟨root, hroot, hr⟩ := h
  exact ⟨root, hroot, hr.tail href⟩

theorem made_of_reachable (h : ∀ root ∈ roots, Made root) (hc : cell ∈ reachable roots) :
    Made cell := by
  obtain ⟨root, hroot, hr⟩ := hc
  exact (h root hroot).reaches hr

theorem reachable_refs (cell : Cell) : reachable [cell] = insert cell (reachable cell.refs) := by
  ext x
  simp only [reachable, Set.mem_ofPred_eq, List.mem_singleton, exists_eq_left, Set.mem_insert_iff]
  exact reaches_iff

theorem reachable_empty : reachable [Cell.empty] = {Cell.empty} := by
  rw [reachable_refs]
  simp [reachable, Cell.empty, Cell.refs]

end Reachable

/-! ## Every level of every cell -/

/-- **The levels of a cell.** Making a cell finds every index in range and goes without an answer
only where a depth leaves two bytes. Let `s` be the greatest significant level up to a level of a
cell that is made. Then a pruned branch with levels above shows the hash and depth it stores, and
any other cell shows the digest of its descriptors, of its data or the hash of the significant level
below `s`, and of the depths and hashes of its children. -/
theorem ofBytes_levels (kind : CellKind) (data : Bytes) (count : Nat) (refs : List Cell) :
    ofBytes kind data count refs ≠ .error .outOfBounds ∧
    (ofBytes kind data count refs = .error .overflow ↔
      count ≤ maxBits ∧ refs.length ≤ maxRefs ∧ (count + 7) / 8 ≤ data.length ∧
        ∃ mask, Layout.mask kind ((Bits.ofBytes data).take count) refs = .ok mask ∧
          Overdeep kind mask refs) ∧
    ∀ cell, ofBytes kind data count refs = .ok cell → ∀ level,
      let s := cell.mask.floor level
      let i := (cell.mask.upTo level).count
      IsGreatest {s | s ≤ level ∧ cell.mask.isSignificant s = true} s ∧
      if kind = .prunedBranch ∧ cell.mask.upTo level ≠ cell.mask then
        (cell.hashAt level).bytes = (cell.data.drop (2 + 32 * i)).take 32 ∧
        cell.depthAt level =
          Bytes.toNat ((cell.data.drop (2 + 32 * cell.mask.count + 2 * i)).take 2)
      else
        cell.hashAt level = sha256
          ([UInt8.ofNat (refsDescriptor refs.length kind.isExotic (cell.mask.upTo s)),
            UInt8.ofNat (bitsDescriptor count)] ++
           (if s = 0 ∨ kind = .prunedBranch then cell.tagged
            else (cell.hashAt (cell.mask.floor (s - 1))).bytes) ++
           refs.flatMap (fun ref => Bytes.ofNat 2 (ref.depthAt (childLevel kind s))) ++
           refs.flatMap (fun ref => (ref.hashAt (childLevel kind s)).bytes)) ∧
        cell.depthAt level = if refs = [] then 0
          else 1 + (refs.map (·.depthAt (childLevel kind s))).foldr max 0 := by
  refine ⟨?_, ?_, ?_⟩
  · intro h
    cases ((ofBytes_eq_error_iff kind data count refs rfl).mp h).2.2.2.2
  · rw [ofBytes_eq_error_iff kind data count refs rfl, and_iff_left rfl]
  · intro cell h level
    refine ⟨LevelMask.isGreatest_floor, ?_⟩
    obtain ⟨hd, h⟩ := ofBytes_eq_ok_iff.mp h
    have hc : cell.bits.length = count := by
      rw [bits_make h, List.length_take, Bits.length_ofBytes]
      omega
    have hs := sound_of_make h
    rw [← kind_make h, ← refs_make h, ← hc]
    split
    · next hp => exact hs.stored hp.1 hp.2
    · next hp => exact hs.get_eq hp

end BagOfCells.Cell
