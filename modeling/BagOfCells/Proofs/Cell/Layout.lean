import BagOfCells.Cell.Make
import BagOfCells.Proofs.Cell.LevelMask
import BagOfCells.Proofs.Outcome

/-!
# What a layout says

A cell has a level mask exactly when its bits and references suit its kind. The bytes that are
looked at lie within the data, since the count of bits is checked first, so whatever else happens is
a refusal with a cause.

## Main definitions

* `Layout.Stores`: a hash and a depth in the data are those of a child
* `Layout.Suits`: bits and references suit a kind, with a level mask
* `Layout.storedHash`: a hash and a depth in the data of a pruned branch

## Main results

* `Layout.mask_eq_ok_iff`: there is a level mask exactly when they suit the kind
* `Layout.mask_eq_error`: whatever else happens has a cause
* `Layout.Suits.level_le`: how high the levels of the children are
* `Layout.prunedHash_eq_ok`: the hashes stored in a pruned branch are in range
-/

namespace BagOfCells.Layout

open Outcome

/-- The data hold the hash and the depth of a child at level 0, at the given byte offsets. -/
def Stores (data : Bytes) (hashOffset depthOffset : Nat) (child : Cell) : Prop :=
  (data.drop hashOffset).take 32 = (child.hashAt 0).bytes ∧
    Bytes.toNat ((data.drop depthOffset).take 2) = child.depthAt 0

/-- The hash and depth number `i` in the data of a pruned branch. -/
def storedHash (mask : LevelMask) (data : Bytes) (i : Nat) : LevelHash :=
  ⟨.ofBytes ((data.drop (2 + 32 * i)).take 32),
    Bytes.toNat ((data.drop (2 + 32 * mask.count + 2 * i)).take 2)⟩

/-- The bits and references behind the type byte suit the kind. -/
def Suits (bits : Bits) (refs : List Cell) (mask : LevelMask) : CellKind → Prop
  | .ordinary => mask = ordinaryMask refs
  | .prunedBranch => refs = [] ∧ mask ≠ .empty ∧ bits.length = 16 + mask.count * hashAndDepthBits ∧
      (Bits.pack bits)[1]? = some (UInt8.ofNat mask.toNat)
  | .library => refs = [] ∧ mask = .empty ∧ bits.length = 8 + 256
  | .merkleProof => ∃ child, refs = [child] ∧ mask = child.mask.lower ∧
      bits.length = 8 + hashAndDepthBits ∧ Stores (Bits.pack bits) 1 33 child
  | .merkleUpdate => ∃ before after, refs = [before, after] ∧
      mask = (before.mask.union after.mask).lower ∧ bits.length = 8 + 2 * hashAndDepthBits ∧
      Stores (Bits.pack bits) 1 65 before ∧ Stores (Bits.pack bits) 33 67 after

/-- An exotic cell begins with the byte of its kind. -/
def BeginsWith (kind : CellKind) (bits : Bits) : Prop :=
  ∀ byte, kind.typeByte? = some byte → 8 ≤ bits.length ∧ (Bits.pack bits).head? = some byte

section

variable {bits : Bits} {refs : List Cell} {mask : LevelMask}

@[simp] theorem require_eq_ok_iff {condition : Bool} {fault : LayoutFault} {u : Unit} :
    require condition fault = .ok u ↔ condition = true := by
  unfold require
  split <;> simp_all

@[simp] theorem require_eq_error_iff {condition : Bool} {fault : LayoutFault} {e : CellError} :
    require condition fault = .error e ↔ condition = false ∧ e = .layout fault := by
  unfold require
  split <;> simp_all [eq_comm]

theorem checkTypeByte_eq_ok_iff {kind : CellKind} :
    (∃ u, checkTypeByte kind bits (Bits.pack bits) = .ok u) ↔ BeginsWith kind bits := by
  unfold checkTypeByte BeginsWith
  cases kind.typeByte? <;> simp

section Child

variable {data : Bytes} {hashOffset depthOffset : Nat} {child : Cell}

theorem checkChild_eq (hh : hashOffset + 32 ≤ data.length) (hd : depthOffset + 2 ≤ data.length) :
    checkChild data hashOffset depthOffset child =
      (require ((data.drop hashOffset).take 32 == (child.hashAt 0).bytes) .childHash >>= fun _ =>
        require (Bytes.toNat ((data.drop depthOffset).take 2) == child.depthAt 0) .childDepth) := by
  unfold checkChild
  rw [Checked.slice_eq_ok hh, Checked.slice_eq_ok hd]
  rfl

theorem checkChild_eq_ok_iff (hh : hashOffset + 32 ≤ data.length)
    (hd : depthOffset + 2 ≤ data.length) {u : Unit} :
    checkChild data hashOffset depthOffset child = .ok u ↔
      Stores data hashOffset depthOffset child := by
  rw [checkChild_eq hh hd]
  simp [Stores]

theorem checkChild_eq_error (hh : hashOffset + 32 ≤ data.length)
    (hd : depthOffset + 2 ≤ data.length) {e : CellError}
    (h : checkChild data hashOffset depthOffset child = .error e) : ∃ fault, e = .layout fault := by
  rw [checkChild_eq hh hd] at h
  simp only [bind_eq_error_iff, require_eq_error_iff] at h
  rcases h with ⟨-, rfl⟩ | ⟨-, -, -, rfl⟩ <;> exact ⟨_, rfl⟩

end Child

/-! ## The kinds -/

theorem prunedMask_eq_ok_iff :
    prunedMask bits (Bits.pack bits) refs = .ok mask ↔ Suits bits refs mask .prunedBranch := by
  unfold prunedMask Suits
  simp only [bind_eq_ok_iff, require_eq_ok_iff, pure_eq_ok_iff, Checked.item_eq_ok_iff,
    exists_const, List.isEmpty_iff, decide_eq_true_eq, beq_iff_eq, Bool.and_eq_true, bne_iff_ne]
  constructor
  · rintro ⟨hr, -, byte, hb, ⟨hne, h7⟩, hl, rfl⟩
    refine ⟨hr, hne, hl, ?_⟩
    -- a byte up to seven is the byte of the mask it gives
    have h8 : byte.toNat < 8 := Nat.lt_succ_of_le (UInt8.le_iff_toNat_le.mp h7)
    rw [hb, LevelMask.toNat_ofNat, Nat.mod_eq_of_lt h8, UInt8.ofNat_toNat]
  · rintro ⟨hr, hne, hl, hb⟩
    have h8 := mask.toNat_lt
    have hn : (UInt8.ofNat mask.toNat).toNat = mask.toNat :=
      Nat.mod_eq_of_lt (h8.trans (by decide))
    have h7 : UInt8.ofNat mask.toNat ≤ 7 :=
      UInt8.le_iff_toNat_le.mpr (hn.symm ▸ Nat.le_of_lt_succ h8)
    refine ⟨hr, by omega, _, hb, ?_⟩
    rw [hn, LevelMask.ofNat_toNat]
    exact ⟨⟨hne, h7⟩, hl, rfl⟩

theorem libraryMask_eq_ok_iff :
    libraryMask bits refs = .ok mask ↔ Suits bits refs mask .library := by
  unfold libraryMask Suits
  simp only [bind_eq_ok_iff, require_eq_ok_iff, pure_eq_ok_iff, exists_const, List.isEmpty_iff,
    beq_iff_eq]
  constructor
  · rintro ⟨hr, hl, rfl⟩
    exact ⟨hr, rfl, hl⟩
  · rintro ⟨hr, rfl, hl⟩
    exact ⟨hr, hl, rfl⟩

theorem proofMask_eq_ok_iff :
    proofMask bits (Bits.pack bits) refs = .ok mask ↔ Suits bits refs mask .merkleProof := by
  match refs with
  | [child] =>
    unfold proofMask Suits
    simp only [bind_eq_ok_iff, require_eq_ok_iff, pure_eq_ok_iff, exists_const, beq_iff_eq]
    have hc (hl : bits.length = 8 + hashAndDepthBits) :
        checkChild (Bits.pack bits) 1 33 child = .ok () ↔ Stores (Bits.pack bits) 1 33 child :=
      checkChild_eq_ok_iff (by rw [Bits.length_pack, hl]; decide)
        (by rw [Bits.length_pack, hl]; decide)
    constructor
    · rintro ⟨hl, ⟨⟩, h, rfl⟩
      exact ⟨child, rfl, rfl, hl, (hc hl).mp h⟩
    · rintro ⟨child, hr, rfl, hl, h⟩
      cases hr
      exact ⟨hl, (), (hc hl).mpr h, rfl⟩
  | [] => simp [proofMask, Suits]
  | _ :: _ :: _ => simp [proofMask, Suits]

theorem updateMask_eq_ok_iff :
    updateMask bits (Bits.pack bits) refs = .ok mask ↔ Suits bits refs mask .merkleUpdate := by
  match refs with
  | [before, after] =>
    unfold updateMask Suits
    simp only [bind_eq_ok_iff, require_eq_ok_iff, pure_eq_ok_iff, exists_const, beq_iff_eq]
    have hb (hl : bits.length = 8 + 2 * hashAndDepthBits) :
        checkChild (Bits.pack bits) 1 65 before = .ok () ↔ Stores (Bits.pack bits) 1 65 before :=
      checkChild_eq_ok_iff (by rw [Bits.length_pack, hl]; decide)
        (by rw [Bits.length_pack, hl]; decide)
    have ha (hl : bits.length = 8 + 2 * hashAndDepthBits) :
        checkChild (Bits.pack bits) 33 67 after = .ok () ↔ Stores (Bits.pack bits) 33 67 after :=
      checkChild_eq_ok_iff (by rw [Bits.length_pack, hl]; decide)
        (by rw [Bits.length_pack, hl]; decide)
    constructor
    · rintro ⟨hl, ⟨⟩, h₁, ⟨⟩, h₂, rfl⟩
      exact ⟨before, after, rfl, rfl, hl, (hb hl).mp h₁, (ha hl).mp h₂⟩
    · rintro ⟨before, after, hr, rfl, hl, h₁, h₂⟩
      cases hr
      exact ⟨hl, (), (hb hl).mpr h₁, (), (ha hl).mpr h₂, rfl⟩
  | [] | [_] => simp [updateMask, Suits]
  | _ :: _ :: _ :: _ => simp [updateMask, Suits]

/-- **There is a level mask** exactly when bits and references suit the kind. -/
theorem mask_eq_ok_iff {kind : CellKind} :
    Layout.mask kind bits refs = .ok mask ↔ BeginsWith kind bits ∧ Suits bits refs mask kind := by
  unfold Layout.mask
  rw [bind_eq_ok_iff, exists_and_right, checkTypeByte_eq_ok_iff]
  apply and_congr_right
  intro _
  cases kind with
  | ordinary => exact pure_eq_ok_iff.trans eq_comm
  | prunedBranch => exact prunedMask_eq_ok_iff
  | library => exact libraryMask_eq_ok_iff
  | merkleProof => exact proofMask_eq_ok_iff
  | merkleUpdate => exact updateMask_eq_ok_iff

/-! ## The levels of children -/

theorem le_level_foldl_union (mask : LevelMask) :
    mask.level ≤ (refs.foldl (fun mask ref => mask.union ref.mask) mask).level := by
  induction refs generalizing mask with
  | nil => exact le_rfl
  | cons ref refs ih =>
    apply le_trans _ (ih (mask.union ref.mask))
    rw [LevelMask.level_union]
    exact le_max_left ..

theorem level_le_ordinaryMask {ref : Cell} (h : ref ∈ refs) :
    ref.mask.level ≤ (ordinaryMask refs).level := by
  obtain ⟨before, after, rfl⟩ := List.append_of_mem h
  rw [ordinaryMask, List.foldl_append, List.foldl_cons]
  apply le_trans _ (le_level_foldl_union _)
  rw [LevelMask.level_union]
  exact le_max_right ..

theorem isSignificant_foldl_union {mask : LevelMask} {level : Nat}
    (h : mask.isSignificant level = true ∨ ∃ ref ∈ refs, ref.mask.isSignificant level = true) :
    (refs.foldl (fun mask ref => mask.union ref.mask) mask).isSignificant level = true := by
  induction refs generalizing mask with
  | nil => simpa using h
  | cons ref refs ih =>
    apply ih
    rw [LevelMask.isSignificant_union, Bool.or_eq_true]
    rcases h with h | ⟨r, hr, h⟩
    · exact .inl (.inl h)
    · rcases List.mem_cons.mp hr with rfl | hr
      · exact .inl (.inr h)
      · exact .inr ⟨r, hr, h⟩

/-- The levels of a child are levels of an ordinary cell above it. -/
theorem isSignificant_ordinaryMask {ref : Cell} (href : ref ∈ refs) (level : Nat)
    (h : ref.mask.isSignificant level = true) :
    (ordinaryMask refs).isSignificant level = true :=
  isSignificant_foldl_union (.inr ⟨ref, href, h⟩)

/-- A child shows its highest level at the highest level of its parent, where that is read. -/
theorem Suits.level_le {kind : CellKind} (h : Suits bits refs mask kind) {ref : Cell}
    (href : ref ∈ refs) : ref.mask.level ≤ Cell.childLevel kind mask.level := by
  cases kind with
  | ordinary => exact (h : mask = _) ▸ level_le_ordinaryMask href
  | prunedBranch | library =>
    rw [h.1] at href
    cases href
  | merkleProof =>
    -- the mask is one level lower, and the children are read one level higher
    obtain ⟨child, rfl, rfl, -⟩ := h
    rw [List.mem_singleton.mp href]
    exact LevelMask.level_le_lower
  | merkleUpdate =>
    obtain ⟨before, after, rfl, rfl, -⟩ := h
    apply le_trans _ LevelMask.level_le_lower
    rw [LevelMask.level_union]
    rcases List.mem_pair.mp href with rfl | rfl
    · exact le_max_left ..
    · exact le_max_right ..

/-! ## Refusals -/

variable {e : CellError}

theorem prunedMask_eq_error (h : prunedMask bits (Bits.pack bits) refs = .error e) :
    ∃ fault, e = .layout fault := by
  unfold prunedMask at h
  simp only [bind_eq_error_iff, require_eq_error_iff, require_eq_ok_iff, pure_ne_error,
    decide_eq_true_eq, exists_const, and_false, or_false] at h
  rcases h with h | ⟨-, h | ⟨h16, h | ⟨byte, -, h | ⟨-, h⟩⟩⟩⟩
  · exact ⟨_, h.2⟩
  · exact ⟨_, h.2⟩
  · -- the second byte is there, since there are sixteen bits
    rw [Checked.item_eq_ok (by rw [Bits.length_pack]; omega)] at h
    cases h
  · exact ⟨_, h.2⟩
  · exact ⟨_, h.2⟩

theorem libraryMask_eq_error (h : libraryMask bits refs = .error e) :
    ∃ fault, e = .layout fault := by
  unfold libraryMask at h
  simp only [bind_eq_error_iff, require_eq_error_iff, require_eq_ok_iff, pure_ne_error,
    exists_const, and_false, or_false] at h
  rcases h with h | ⟨-, h⟩ <;> exact ⟨_, h.2⟩

theorem proofMask_eq_error (h : proofMask bits (Bits.pack bits) refs = .error e) :
    ∃ fault, e = .layout fault := by
  unfold proofMask at h
  split at h
  · simp only [bind_eq_error_iff, require_eq_error_iff, require_eq_ok_iff, pure_ne_error,
      exists_const, and_false, or_false, beq_iff_eq] at h
    rcases h with h | ⟨hl, h⟩
    · exact ⟨_, h.2⟩
    · exact checkChild_eq_error (by rw [Bits.length_pack, hl]; decide)
        (by rw [Bits.length_pack, hl]; decide) h
  · cases h
    exact ⟨_, rfl⟩

theorem updateMask_eq_error (h : updateMask bits (Bits.pack bits) refs = .error e) :
    ∃ fault, e = .layout fault := by
  unfold updateMask at h
  split at h
  · simp only [bind_eq_error_iff, require_eq_error_iff, require_eq_ok_iff, pure_ne_error,
      exists_const, and_false, or_false, beq_iff_eq] at h
    rcases h with h | ⟨hl, h | ⟨-, -, h⟩⟩
    · exact ⟨_, h.2⟩
    · exact checkChild_eq_error (by rw [Bits.length_pack, hl]; decide)
        (by rw [Bits.length_pack, hl]; decide) h
    · exact checkChild_eq_error (by rw [Bits.length_pack, hl]; decide)
        (by rw [Bits.length_pack, hl]; decide) h
  · cases h
    exact ⟨_, rfl⟩

/-- **A cell without a level mask** is refused for a cause. -/
theorem mask_eq_error {kind : CellKind} (h : Layout.mask kind bits refs = .error e) :
    ∃ fault, e = .layout fault := by
  unfold Layout.mask at h
  rcases bind_eq_error_iff.mp h with h | ⟨-, -, h⟩
  · unfold checkTypeByte at h
    split at h
    · cases h
    · exact ⟨_, (require_eq_error_iff.mp h).2⟩
  · cases kind with
    | ordinary => cases h
    | prunedBranch => exact prunedMask_eq_error h
    | library => exact libraryMask_eq_error h
    | merkleProof => exact proofMask_eq_error h
    | merkleUpdate => exact updateMask_eq_error h

/-! ## Stored hashes -/

/-- The hashes and depths below the mask of a pruned branch are in range. -/
theorem prunedHash_eq_ok (h : Suits bits refs mask .prunedBranch) {i : Nat} (hi : i < mask.count) :
    prunedHash mask bits i = .ok (storedHash mask (Bits.pack bits) i) := by
  have hl : (Bits.pack bits).length = 2 + 34 * mask.count := by
    rw [Bits.length_pack, h.2.2.1, hashAndDepthBits]
    omega
  have hh : 2 + 32 * i + 32 ≤ (Bits.pack bits).length := by omega
  have hd : 2 + 32 * mask.count + 2 * i + 2 ≤ (Bits.pack bits).length := by omega
  simp only [prunedHash, Checked.slice_eq_ok hh, Checked.slice_eq_ok hd]
  rfl

end

end BagOfCells.Layout
