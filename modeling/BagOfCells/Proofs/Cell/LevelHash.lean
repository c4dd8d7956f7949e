import BagOfCells.Cell.Make
import BagOfCells.Proofs.Bits
import BagOfCells.Proofs.Cell.Layout
import BagOfCells.Proofs.Outcome

/-!
# The hash at a level

The hashes of a cell follow a recursion over its levels: at level 0 the data are hashed, at a
significant level above it the hash of the level below takes their place, and an insignificant level
shows the hash of the level below. A pruned branch has one hash made, that of its highest level, and
shows stored ones below. The loop that makes the hashes and the second pass that looks them up agree
with the recursion, find every index in range, and fail only where a depth leaves two bytes.

## Main definitions

* `Cell.depthOver`, `Cell.levelHashOf`: the depth and the hash at a level, whatever the depth
* `Cell.atLevel`, `Cell.hashAtLevel`: the recursion, and with it the stored hashes
* `Cell.Overdeep`: some level at which the depth leaves two bytes
* `Cell.Reached`: where the loop stands

## Main results

* `Cell.Reached.step`: what one step of the loop keeps
* `Cell.exists_reached`, `Cell.madeHashes_pruned`: the loop, and the loop on a pruned branch
* `Cell.computeHashes_eq_ok_iff`, `Cell.computeHashes_eq_error_iff`: all levels together
-/

namespace BagOfCells.Cell

open Outcome

/-- The depth above some children, read at one level, whatever it is. -/
def depthOver (refs : List Cell) (child : Nat) : Nat :=
  if refs = [] then 0 else 1 + (refs.map (·.depthAt child)).foldr max 0

/-- The hash and depth at a significant level, whatever the depth. -/
def levelHashOf (kind : CellKind) (mask : LevelMask) (bits : Bits) (refs : List Cell) (level : Nat)
    (body : Bytes) : LevelHash :=
  let child := childLevel kind level
  let first := UInt8.ofNat (refsDescriptor refs.length kind.isExotic (mask.upTo level))
  ⟨sha256 (preimage first (bitsDescriptorByte bits.length) body refs child), depthOver refs child⟩

/-- The hash and depth at a level, by recursion over the levels. -/
def atLevel (kind : CellKind) (mask : LevelMask) (bits : Bits) (refs : List Cell) :
    (level : Nat) → LevelHash
  | 0 => levelHashOf kind mask bits refs 0 (Bits.pack (Bits.complete bits))
  | level + 1 =>
    let below := atLevel kind mask bits refs level
    if mask.isSignificant (level + 1) then
      levelHashOf kind mask bits refs (level + 1) below.digest.bytes
    else below

/-- Some child is so deep at some significant level that the depth above it leaves two bytes. -/
def Overdeep (kind : CellKind) (mask : LevelMask) (refs : List Cell) : Prop :=
  ∃ level, mask.isSignificant level = true ∧
    ∃ ref ∈ refs, maxDepth ≤ ref.depthAt (childLevel kind level)

/-! ## One level -/

theorem foldl_max_eq_foldr (refs : List Cell) (child a : Nat) :
    refs.foldl (fun depth ref => max depth (ref.depthAt child)) a =
      max a ((refs.map (·.depthAt child)).foldr max 0) := by
  induction refs generalizing a with
  | nil => simp
  | cons ref refs ih => rw [List.foldl_cons, ih, List.map_cons, List.foldr_cons, Nat.max_assoc]

theorem le_foldr_max_iff {depths : List Nat} {n : Nat} (h : 0 < n) :
    n ≤ depths.foldr max 0 ↔ ∃ depth ∈ depths, n ≤ depth := by
  induction depths with
  | nil => simp; omega
  | cons depth depths ih => simp only [List.foldr_cons, le_max_iff, ih, List.exists_mem_cons_iff]

theorem depthOver_gt_iff {refs : List Cell} {child : Nat} :
    maxDepth < depthOver refs child ↔ ∃ ref ∈ refs, maxDepth ≤ ref.depthAt child := by
  unfold depthOver
  split
  · next h => simp [h]
  · rw [Nat.add_comm, Nat.lt_succ_iff, le_foldr_max_iff (by decide)]
    simp

theorem depthAbove_eq (refs : List Cell) (child : Nat) :
    depthAbove refs child =
      if depthOver refs child ≤ maxDepth then .ok (depthOver refs child) else .error .overflow := by
  unfold depthAbove depthOver
  rw [foldl_max_eq_foldr, Nat.zero_max]
  rcases refs with _ | ⟨ref, refs⟩
  · simp
  · simp only [List.isEmpty_cons, Bool.false_eq_true, if_false, reduceCtorEq, Nat.add_comm 1,
      Nat.add_one_le_iff]

theorem refsDescriptor_lt {refs : Nat} (h : refs ≤ maxRefs) (isExotic : Bool) (mask : LevelMask) :
    refsDescriptor refs isExotic mask < 256 := by
  have := mask.toNat_lt
  unfold maxRefs at h
  unfold refsDescriptor
  split <;> omega

/-- The fields of the first descriptor. -/
theorem refsDescriptor_fields {refs : Nat} (hr : refs ≤ maxRefs) (exotic : Bool)
    (mask : LevelMask) :
    refsDescriptor refs exotic mask % 8 = refs ∧
      (refsDescriptor refs exotic mask).testBit 4 = false ∧
      (refsDescriptor refs exotic mask).testBit 3 = exotic ∧
      refsDescriptor refs exotic mask / 32 = mask.toNat := by
  unfold maxRefs at hr
  have hm := mask.toNat_lt
  simp only [refsDescriptor, Nat.testBit_eq_decide_div_mod_eq]
  cases exotic <;> simp <;> omega

section Level

variable {kind : CellKind} {mask : LevelMask} {bits : Bits} {refs : List Cell} {level : Nat}

theorem levelHash_eq (h : refs.length ≤ maxRefs) (body : Bytes) :
    levelHash kind mask bits refs level body =
      if depthOver refs (childLevel kind level) ≤ maxDepth then
        .ok (levelHashOf kind mask bits refs level body)
      else .error .overflow := by
  have hm : refs.length % 256 = refs.length := Nat.mod_eq_of_lt (by unfold maxRefs at h; omega)
  unfold levelHash
  simp only [depthAbove_eq, hm, Checked.byte_eq_ok (refsDescriptor_lt h _ _)]
  split <;> rfl

theorem levelHash_eq_ok_iff (h : refs.length ≤ maxRefs) {body : Bytes} {hash : LevelHash} :
    levelHash kind mask bits refs level body = .ok hash ↔
      depthOver refs (childLevel kind level) ≤ maxDepth ∧
        levelHashOf kind mask bits refs level body = hash := by
  rw [levelHash_eq h]
  split <;> simp_all

theorem levelHash_eq_error_iff (h : refs.length ≤ maxRefs) {body : Bytes} {e : CellError} :
    levelHash kind mask bits refs level body = .error e ↔
      maxDepth < depthOver refs (childLevel kind level) ∧ e = .overflow := by
  rw [levelHash_eq h]
  split
  · next hd => simp [Nat.not_lt.mpr hd]
  · next hd => simp [Nat.lt_of_not_le hd, eq_comm]

theorem atLevel_succ_of_isSignificant (h : mask.isSignificant (level + 1) = true) :
    atLevel kind mask bits refs (level + 1) =
      levelHashOf kind mask bits refs (level + 1)
        (atLevel kind mask bits refs level).digest.bytes := by
  rw [atLevel, if_pos h]

theorem atLevel_succ_of_not (h : mask.isSignificant (level + 1) = false) :
    atLevel kind mask bits refs (level + 1) = atLevel kind mask bits refs level := by
  rw [atLevel, if_neg (by simp [h])]

/-- The hash at a level is that at the last significant level up to it. -/
theorem atLevel_floor :
    atLevel kind mask bits refs (mask.floor level) = atLevel kind mask bits refs level := by
  induction level with
  | zero => rfl
  | succ level ih =>
    rw [LevelMask.floor]
    split
    · rfl
    · next h => rw [ih, atLevel_succ_of_not (by simpa using h)]

end Level

/-! ## The loop -/

section Loop

variable {kind : CellKind} {mask : LevelMask} {bits : Bits} {refs : List Cell}

/-- Where the loop stands below level `k`, of a cell all of whose hashes are made. -/
structure Reached (kind : CellKind) (mask : LevelMask) (bits : Bits) (refs : List Cell) (k : Nat)
    (progress : Progress) : Prop where
  passed : progress.passed = mask.passed k
  length : progress.made.length = mask.passed k
  hash : ∀ level < k,
    progress.made[(mask.upTo level).count]? = some (atLevel kind mask bits refs level)
  depth : ∀ level < k, mask.isSignificant level = true →
    depthOver refs (childLevel kind level) ≤ maxDepth

theorem Reached.start : Reached kind mask bits refs 0 ⟨[], 0⟩ :=
  ⟨rfl, rfl, by simp, by simp⟩

theorem Reached.getLast? {k : Nat} {progress : Progress}
    (h : Reached kind mask bits refs (k + 1) progress) (hk : k ≤ 3) :
    progress.made.getLast? = some (atLevel kind mask bits refs k) := by
  rw [List.getLast?_eq_getElem?, h.length, mask.passed_succ_eq hk, Nat.add_sub_cancel]
  exact h.hash k k.lt_succ_self

/-- The data of a cell hold all its bits, so they can be padded. -/
theorem padded_pack (bits : Bits) :
    padded (Bits.pack bits) bits.length = .ok (Bits.pack (Bits.complete bits)) := by
  rw [padded, Bits.completed?, if_neg (by rw [Bits.length_pack]; omega), Bits.take_ofBytes_pack]

/-- There is a body for every hash. -/
theorem exists_nextBody (bits : Bits) (made : List LevelHash) :
    ∃ body, nextBody bits made = .ok body := by
  unfold nextBody
  cases made.getLast? with
  | some below => exact ⟨_, rfl⟩
  | none => exact ⟨_, padded_pack bits⟩

/-- The body that the loop hashes next is that of the recursion. -/
theorem Reached.levelHashOf {k : Nat} {progress : Progress}
    (h : Reached kind mask bits refs k progress) (hk : k ≤ 3) (hs : mask.isSignificant k = true)
    {body : Bytes} (hb : nextBody bits progress.made = .ok body) :
    levelHashOf kind mask bits refs k body = atLevel kind mask bits refs k := by
  unfold nextBody at hb
  cases k with
  | zero =>
    -- nothing is made below level 0, so the data are hashed
    have hn : progress.made = [] := List.length_eq_zero_iff.mp h.length
    rw [hn, List.getLast?_nil, padded_pack] at hb
    cases hb
    rfl
  | succ k =>
    rw [h.getLast? (by omega)] at hb
    cases hb
    exact (atLevel_succ_of_isSignificant hs).symm

theorem hashStep_of_not {progress : Progress} {k : Nat} (hs : mask.isSignificant k = false) :
    hashStep kind mask bits refs progress k = .ok progress := by
  rw [hashStep, hs]
  rfl

theorem hashStep_made {progress : Progress} {k : Nat}
    (hs : mask.isSignificant k = true) (hp : storedCount kind mask ≤ progress.passed) :
    hashStep kind mask bits refs progress k =
      (nextBody bits progress.made >>= fun body => levelHash kind mask bits refs k body >>=
        fun hash => .ok ⟨progress.made ++ [hash], progress.passed + 1⟩) := by
  rw [hashStep, hs, if_neg (by simp), if_neg (Nat.not_lt.mpr hp)]
  rfl

/-- One level keeps what the loop has reached. -/
theorem Reached.step (hk : kind ≠ .prunedBranch) (hr : refs.length ≤ maxRefs) {k : Nat}
    (hl : k ≤ 3) {progress progress' : Progress} (h : Reached kind mask bits refs k progress)
    (hs : hashStep kind mask bits refs progress k = .ok progress') :
    Reached kind mask bits refs (k + 1) progress' := by
  by_cases hsig : mask.isSignificant k = true
  · rw [hashStep_made hsig (by simp [storedCount, hk])] at hs
    simp only [bind_eq_ok_iff, levelHash_eq_ok_iff hr, Except.ok.injEq] at hs
    obtain ⟨body, hb, hash, ⟨hd, rfl⟩, rfl⟩ := hs
    rw [h.levelHashOf hl hsig hb]
    have hp : mask.passed (k + 1) = mask.passed k + 1 := by rw [LevelMask.passed_succ, if_pos hsig]
    refine ⟨?_, ?_, ?_, ?_⟩
    · rw [hp, h.passed]
    · rw [List.length_append, h.length, hp, List.length_singleton]
    · -- the hashes below stay where they are, the new one comes behind them
      intro level hlt
      rcases Nat.lt_succ_iff_lt_or_eq.mp hlt with hlt | rfl
      · rw [List.getElem?_append_left, h.hash level hlt]
        exact (List.getElem?_eq_some_iff.mp (h.hash level hlt)).1
      · have hc : (mask.upTo level).count = progress.made.length := by
          have := mask.passed_succ_eq hl
          rw [h.length]
          omega
        simp [hc]
    · intro level hlt hsl
      rcases Nat.lt_succ_iff_lt_or_eq.mp hlt with hlt | rfl
      · exact h.depth level hlt hsl
      · exact hd
  · rw [Bool.not_eq_true] at hsig
    rw [hashStep_of_not hsig] at hs
    cases hs
    -- level 0 is significant, so there is a level below, whose hash is shown here too
    obtain ⟨k, rfl⟩ : ∃ n, k = n + 1 := Nat.exists_eq_succ_of_ne_zero (by rintro rfl; simp at hsig)
    have hp : mask.passed (k + 1 + 1) = mask.passed (k + 1) := by
      rw [LevelMask.passed_succ, hsig]
      rfl
    refine ⟨by rw [hp, h.passed], by rw [hp, h.length], ?_, ?_⟩
    · intro level hlt
      rcases Nat.lt_succ_iff_lt_or_eq.mp hlt with hlt | rfl
      · exact h.hash level hlt
      · rw [LevelMask.upTo_succ_of_not_isSignificant hsig, atLevel_succ_of_not hsig]
        exact h.hash k k.lt_succ_self
    · intro level hlt hsl
      rcases Nat.lt_succ_iff_lt_or_eq.mp hlt with hlt | rfl
      · exact h.depth level hlt hsl
      · rw [hsig] at hsl
        cases hsl

theorem hashStep_eq_error (hr : refs.length ≤ maxRefs) {progress : Progress} {k : Nat}
    {e : CellError} (h : hashStep kind mask bits refs progress k = .error e) :
    e = .overflow ∧ mask.isSignificant k = true ∧
      maxDepth < depthOver refs (childLevel kind k) := by
  cases hs : mask.isSignificant k with
  | false =>
    rw [hashStep_of_not hs] at h
    cases h
  | true =>
    rcases Nat.lt_or_ge progress.passed (storedCount kind mask) with hp | hp
    · rw [hashStep, hs, if_neg (by simp), if_pos hp] at h
      cases h
    · obtain ⟨body, hb⟩ := exists_nextBody bits progress.made
      rw [hashStep_made hs hp, hb] at h
      simp only [bind_eq_error_iff, levelHash_eq_error_iff hr, reduceCtorEq, Except.ok.injEq,
        exists_eq_left', false_or, and_false, exists_false, or_false] at h
      exact ⟨h.2, rfl, h.1⟩

theorem overdeep_iff :
    Overdeep kind mask refs ↔ ∃ level, mask.isSignificant level = true ∧
      maxDepth < depthOver refs (childLevel kind level) := by
  simp only [Overdeep, depthOver_gt_iff]

/-- **The loop** reaches the level of the mask. -/
theorem exists_reached (hk : kind ≠ .prunedBranch) (hr : refs.length ≤ maxRefs)
    {made : List LevelHash} (h : madeHashes kind mask bits refs = .ok made) :
    ∃ progress, progress.made = made ∧ Reached kind mask bits refs (mask.level + 1) progress := by
  simp only [madeHashes, bind_eq_ok_iff, pure_eq_ok_iff] at h
  obtain ⟨progress, h, hmade⟩ := h
  refine ⟨progress, hmade, foldlM_range_inv _ Reached.start ?_ h⟩
  intro k hlt s s' hs hstep
  exact hs.step hk hr ((Nat.lt_succ_iff.mp hlt).trans mask.level_le) hstep

theorem madeHashes_eq_ok (hk : kind ≠ .prunedBranch) (hr : refs.length ≤ maxRefs)
    {made : List LevelHash} (h : madeHashes kind mask bits refs = .ok made) {level : Nat}
    (hl : level ≤ mask.level) :
    made[(mask.upTo level).count]? = some (atLevel kind mask bits refs level) := by
  obtain ⟨progress, rfl, hreached⟩ := exists_reached hk hr h
  exact hreached.hash level (Nat.lt_succ_of_le hl)

theorem madeHashes_eq_error (hr : refs.length ≤ maxRefs) {e : CellError}
    (h : madeHashes kind mask bits refs = .error e) :
    e = .overflow ∧ Overdeep kind mask refs := by
  simp only [madeHashes, bind_eq_error_iff, pure_ne_error, and_false, exists_false, or_false] at h
  -- whatever the loop has reached, a step fails only for its depth
  obtain ⟨k, -, s, -, hs⟩ := foldlM_range_error (fun _ _ => True) trivial
    (fun _ _ _ _ _ _ => trivial) h
  obtain ⟨rfl, hsig, hd⟩ := hashStep_eq_error hr hs
  exact ⟨rfl, overdeep_iff.mpr ⟨k, hsig, hd⟩⟩

theorem madeHashes_not_overdeep (hk : kind ≠ .prunedBranch) (hr : refs.length ≤ maxRefs)
    {made : List LevelHash} (h : madeHashes kind mask bits refs = .ok made) :
    ¬ Overdeep kind mask refs := by
  obtain ⟨progress, rfl, hreached⟩ := exists_reached hk hr h
  rw [overdeep_iff]
  rintro ⟨level, hs, hd⟩
  have hle := LevelMask.le_level_of_isSignificant hs
  exact absurd hd (Nat.not_lt.mpr (hreached.depth level (Nat.lt_succ_of_le hle) hs))

end Loop

/-! ## The loop on a pruned branch -/

section Pruned

variable {mask : LevelMask} {bits : Bits} {refs : List Cell}

/-- Below its highest level a pruned branch has no hash made. -/
theorem foldlM_hashStep_pruned {k : Nat} (hk : k ≤ mask.level) :
    (List.range k).foldlM (hashStep .prunedBranch mask bits refs) ⟨[], 0⟩ =
      .ok ⟨[], mask.passed k⟩ := by
  have h3 : mask.level ≤ 3 := mask.level_le
  induction k with
  | zero => rfl
  | succ k ih =>
    rw [List.range_succ, List.foldlM_append, ih (by omega)]
    simp only [List.foldlM_cons, List.foldlM_nil, bind_pure]
    change hashStep .prunedBranch mask bits refs ⟨[], mask.passed k⟩ k = _
    rw [LevelMask.passed_succ]
    cases hs : mask.isSignificant k with
    | false => exact hashStep_of_not hs
    | true =>
      -- so far fewer hashes have been passed than are stored, so this one is passed too
      have hp := mask.passed_succ k
      rw [if_pos hs, mask.passed_succ_eq (by omega)] at hp
      have hc : (mask.upTo k).count < mask.count := LevelMask.count_upTo_lt (by omega)
      rw [hashStep, hs, if_neg (by simp), if_pos (by simp only [storedCount, if_true]; omega)]
      rfl

/-- **The loop on a pruned branch** makes the hash of its highest level, over the data. -/
theorem madeHashes_pruned :
    madeHashes .prunedBranch mask bits refs =
      (levelHash .prunedBranch mask bits refs mask.level (Bits.pack (Bits.complete bits)) >>=
        fun own => .ok [own]) := by
  have hp := mask.passed_succ mask.level
  rw [if_pos LevelMask.isSignificant_level, mask.passed_succ_eq mask.level_le,
    mask.upTo_level] at hp
  unfold madeHashes
  rw [List.range_succ, List.foldlM_append, foldlM_hashStep_pruned le_rfl]
  simp only [List.foldlM_cons, List.foldlM_nil, bind_pure]
  change hashStep .prunedBranch mask bits refs ⟨[], mask.passed mask.level⟩ mask.level >>= _ = _
  have hb : nextBody bits [] = .ok (Bits.pack (Bits.complete bits)) := padded_pack bits
  -- at the highest level all stored hashes have been passed
  rw [hashStep_made LevelMask.isSignificant_level (by simp only [storedCount, if_true]; omega), hb]
  change (levelHash _ _ _ _ _ _ >>= _) >>= _ = _
  rw [bind_assoc]
  rfl

end Pruned

/-! ## The lookup -/

section Lookup

variable {kind : CellKind} {mask : LevelMask} {bits : Bits} {refs : List Cell}

/-- The hash and depth at a level: of a pruned branch a stored one below its highest level. -/
def hashAtLevel (kind : CellKind) (mask : LevelMask) (bits : Bits) (refs : List Cell)
    (level : Nat) : LevelHash :=
  if kind = .prunedBranch then
    if mask.upTo level = mask then
      levelHashOf kind mask bits refs mask.level (Bits.pack (Bits.complete bits))
    else Layout.storedHash mask (Bits.pack bits) (mask.upTo level).count
  else atLevel kind mask bits refs level

theorem resolve_pruned (hs : Layout.Suits bits refs mask .prunedBranch) (own : LevelHash)
    (level : Nat) :
    resolve .prunedBranch mask bits [own] level =
      .ok (if mask.upTo level = mask then own
        else Layout.storedHash mask (Bits.pack bits) (mask.upTo level).count) := by
  simp only [resolve, if_true, ne_eq, LevelMask.upTo_eq_self_iff, LevelMask.count_upTo_eq_iff]
  rcases Nat.lt_or_ge level mask.level with h | h
  · rw [if_pos (Nat.not_le.mpr h), if_neg (Nat.not_le.mpr h),
      Layout.prunedHash_eq_ok hs (LevelMask.count_upTo_lt h)]
  · rw [if_neg (not_not.mpr h), if_pos h]
    rfl

/-- At most the levels up to three have hashes of their own. -/
theorem atLevel_of_level_le {level : Nat} (h : mask.level ≤ level) :
    atLevel kind mask bits refs level = atLevel kind mask bits refs mask.level := by
  induction level, h using Nat.le_induction with
  | base => rfl
  | succ level h ih =>
    rw [atLevel_succ_of_not, ih]
    by_contra hs
    have := LevelMask.le_level_of_isSignificant (Bool.eq_true_of_not_eq_false hs)
    omega

theorem resolve_made (hk : kind ≠ .prunedBranch) (hr : refs.length ≤ maxRefs)
    {made : List LevelHash} (h : madeHashes kind mask bits refs = .ok made) (level : Nat) :
    resolve kind mask bits made level = .ok (atLevel kind mask bits refs level) := by
  rw [resolve, if_neg hk, Checked.item_eq_ok_iff]
  rcases Nat.le_total level mask.level with hl | hl
  · exact madeHashes_eq_ok hk hr h hl
  · rw [LevelMask.upTo_eq_self_iff.mpr hl, atLevel_of_level_le hl]
    simpa only [mask.upTo_level] using madeHashes_eq_ok hk hr h le_rfl

theorem resolve_eq (hs : Layout.Suits bits refs mask kind) (hr : refs.length ≤ maxRefs)
    {made : List LevelHash} (h : madeHashes kind mask bits refs = .ok made) (level : Nat) :
    resolve kind mask bits made level = .ok (hashAtLevel kind mask bits refs level) := by
  by_cases hk : kind = .prunedBranch
  · subst hk
    rw [madeHashes_pruned] at h
    simp only [bind_eq_ok_iff, levelHash_eq_ok_iff hr, Except.ok.injEq] at h
    obtain ⟨own, ⟨-, rfl⟩, rfl⟩ := h
    rw [resolve_pruned hs, hashAtLevel, if_pos rfl]
  · rw [resolve_made hk hr h, hashAtLevel, if_neg hk]

theorem hashAtLevel_of_three_le {level : Nat} (h : 3 ≤ level) :
    hashAtLevel kind mask bits refs level = hashAtLevel kind mask bits refs 3 := by
  have h3 : mask.level ≤ 3 := mask.level_le
  rw [hashAtLevel, hashAtLevel, LevelMask.upTo_of_three_le h, atLevel_of_level_le (h3.trans h),
    atLevel_of_level_le h3]

theorem not_overdeep (hs : Layout.Suits bits refs mask kind) (hr : refs.length ≤ maxRefs)
    {made : List LevelHash} (h : madeHashes kind mask bits refs = .ok made) :
    ¬ Overdeep kind mask refs := by
  by_cases hk : kind = .prunedBranch
  · -- a pruned branch has no references
    subst hk
    rintro ⟨level, -, ref, href, -⟩
    rw [hs.1] at href
    cases href
  · exact madeHashes_not_overdeep hk hr h

theorem computeHashes_of_made (hs : Layout.Suits bits refs mask kind) (hr : refs.length ≤ maxRefs)
    {made : List LevelHash} (h : madeHashes kind mask bits refs = .ok made) :
    computeHashes kind mask bits refs =
      .ok ⟨hashAtLevel kind mask bits refs 0, hashAtLevel kind mask bits refs 1,
        hashAtLevel kind mask bits refs 2, hashAtLevel kind mask bits refs 3⟩ := by
  unfold computeHashes
  rw [h]
  simp only [bind, Except.bind, resolve_eq hs hr h]
  rfl

/-- **A cell has hashes** unless some depth leaves two bytes; they are those of the recursion. -/
theorem computeHashes_eq_ok_iff (hs : Layout.Suits bits refs mask kind)
    (hr : refs.length ≤ maxRefs) {hashes : LevelHashes} :
    computeHashes kind mask bits refs = .ok hashes ↔ ¬ Overdeep kind mask refs ∧
      ∀ level, hashes.get level = hashAtLevel kind mask bits refs level := by
  constructor
  · intro h
    cases hm : madeHashes kind mask bits refs with
    | error e =>
      rw [computeHashes, hm] at h
      cases h
    | ok made =>
      rw [computeHashes_of_made hs hr hm] at h
      cases h
      refine ⟨not_overdeep hs hr hm, ?_⟩
      intro level
      match level with
      | 0 | 1 | 2 => rfl
      | level + 3 => exact (hashAtLevel_of_three_le (by omega)).symm
  · rintro ⟨hn, hg⟩
    cases hm : madeHashes kind mask bits refs with
    | error e => exact absurd (madeHashes_eq_error hr hm).2 hn
    | ok made =>
      rw [computeHashes_of_made hs hr hm, ← hg 0, ← hg 1, ← hg 2, ← hg 3]
      rfl

theorem computeHashes_eq_error_iff (hs : Layout.Suits bits refs mask kind)
    (hr : refs.length ≤ maxRefs) {e : CellError} :
    computeHashes kind mask bits refs = .error e ↔ Overdeep kind mask refs ∧ e = .overflow := by
  cases hm : madeHashes kind mask bits refs with
  | error e' =>
    obtain ⟨rfl, ho⟩ := madeHashes_eq_error hr hm
    rw [computeHashes, hm]
    simp [bind, Except.bind, ho, eq_comm]
  | ok made =>
    rw [computeHashes_of_made hs hr hm]
    simp [not_overdeep hs hr hm]

end Lookup

end BagOfCells.Cell
