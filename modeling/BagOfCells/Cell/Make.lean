import BagOfCells.Cell.Layout

/-!
# Making cells

A cell is hashed as the digest of its two descriptor bytes, its data closed by the completion tag,
the depths of its children and their hashes. At a significant level above zero the hash of the
significant level below takes the place of the data, and the descriptor shows the mask up to the
level; the children of a Merkle cell are read one level higher. A pruned branch has only its own
hash computed and shows the stored ones below.

The hashes are made level by level, from level 0 to the highest of the mask, and listed; then the
hash of each of the four levels is looked up among the made and the stored ones.

## Main definitions

* `Cell.preimage`, `Cell.levelHash`: what is hashed at a level, and its digest and depth
* `Cell.nextBody`: what stands in the place of the data in the next hash
* `Cell.hashStep`, `Cell.madeHashes`: the hashes made, level by level
* `Cell.resolve`, `Cell.computeHashes`: the hashes and depths at all levels
* `Cell.make kind bits refs`: a cell, if its limits and its layout are kept
* `Cell.ofBytes kind data bits refs`: the same from bytes and a count of bits
* `Cell.empty`: the ordinary cell that holds nothing

## Main results

* `Cell.kind_make`, `Cell.bits_make`, `Cell.refs_make`: a made cell has the parts it was made of
-/

namespace BagOfCells.Cell

/-- The level at which the children of a cell are read. -/
def childLevel (kind : CellKind) (level : Nat) : Nat :=
  if kind.isMerkle then level + 1 else level

/-- What is hashed: the two descriptors, a body, and the depths and hashes of the children. -/
def preimage (first second : UInt8) (body : Bytes) (refs : List Cell) (child : Nat) : Bytes :=
  first :: second :: body ++ refs.flatMap (fun ref => Bytes.ofNat 2 (ref.depthAt child)) ++
    refs.flatMap (fun ref => (ref.hashAt child).bytes)

/-- The depth above some children, read at one level; it takes two bytes. -/
def depthAbove (refs : List Cell) (child : Nat) : Except CellError Nat :=
  let depth := refs.foldl (fun depth ref => max depth (ref.depthAt child)) 0
  if refs.isEmpty then .ok depth
  -- the sum takes two bytes and does not wrap
  else if depth < maxDepth then .ok (depth + 1)
  else .error .overflow

/-- The hash and depth at a significant level; `body` is the tagged data or the hash of the level
below. -/
def levelHash (kind : CellKind) (mask : LevelMask) (bits : Bits) (refs : List Cell) (level : Nat)
    (body : Bytes) : Except CellError LevelHash := do
  let child := childLevel kind level
  let depth ← depthAbove refs child
  -- the count of references is cut to a byte, the sum is not
  let first ← Checked.byte
    (refsDescriptor (refs.length % 256) kind.isExotic (mask.upTo level))
  return ⟨sha256 (preimage first (bitsDescriptorByte bits.length) body refs child), depth⟩

/-- The hashes made so far, lowest level first, and how many significant levels have been passed. -/
structure Progress where
  made : List LevelHash
  /-- How many significant levels have been passed. -/
  passed : Nat

/-- How many significant levels have no hash made: a pruned branch stores all but the last. -/
def storedCount (kind : CellKind) (mask : LevelMask) : Nat :=
  if kind = .prunedBranch then mask.count else 0

/-- The first bits of some bytes, closed by the completion tag; the bytes must be there. -/
def padded (data : Bytes) (bits : Nat) : Except CellError Bytes :=
  match Bits.completed? data bits with
  | some bytes => .ok bytes
  | none => .error .outOfBounds

/-- The body of the next hash: the first one made sees the data, each later one the hash before
it. -/
def nextBody (bits : Bits) (made : List LevelHash) : Except CellError Bytes :=
  match made.getLast? with
  | some below => .ok below.digest.bytes
  | none => padded (Bits.pack bits) bits.length

/-- Moves on by one level. -/
def hashStep (kind : CellKind) (mask : LevelMask) (bits : Bits) (refs : List Cell)
    (progress : Progress) (level : Nat) : Except CellError Progress :=
  if !mask.isSignificant level then .ok progress
  -- this hash is stored in the data
  else if progress.passed < storedCount kind mask then
    .ok { progress with passed := progress.passed + 1 }
  else do
    let body ← nextBody bits progress.made
    let hash ← levelHash kind mask bits refs level body
    return ⟨progress.made ++ [hash], progress.passed + 1⟩

/-- The hashes made for a cell, lowest level first. -/
def madeHashes (kind : CellKind) (mask : LevelMask) (bits : Bits) (refs : List Cell) :
    Except CellError (List LevelHash) := do
  let progress ← (List.range (mask.level + 1)).foldlM (hashStep kind mask bits refs) ⟨[], 0⟩
  return progress.made

/-- The hash and depth at a level, among those made and those stored in the data. -/
def resolve (kind : CellKind) (mask : LevelMask) (bits : Bits) (made : List LevelHash)
    (level : Nat) : Except CellError LevelHash :=
  let i := (mask.upTo level).count
  if kind = .prunedBranch then
    -- the one hash made is that of the highest level
    if i ≠ mask.count then Layout.prunedHash mask bits i else Checked.item made 0
  else Checked.item made i

/-- The hashes and depths of a cell at all levels. -/
def computeHashes (kind : CellKind) (mask : LevelMask) (bits : Bits) (refs : List Cell) :
    Except CellError LevelHashes := do
  let made ← madeHashes kind mask bits refs
  let zero ← resolve kind mask bits made 0
  let one ← resolve kind mask bits made 1
  let two ← resolve kind mask bits made 2
  let three ← resolve kind mask bits made 3
  return ⟨zero, one, two, three⟩

/-- The limits on bits and references. -/
def checkLimits (bits refs : Nat) : Except CellError Unit := do
  if bits > maxBits then throw (.bits bits maxBits)
  if refs > maxRefs then throw (.refs refs maxRefs)

/-- A cell of the given kind, bits and references. -/
def make (kind : CellKind) (bits : Bits) (refs : List Cell) : Except CellError Cell := do
  checkLimits bits.length refs.length
  let mask ← Layout.mask kind bits refs
  let hashes ← computeHashes kind mask bits refs
  return .mk kind bits refs mask hashes

/-- A cell of the first `bits` bits of some bytes. -/
def ofBytes (kind : CellKind) (data : Bytes) (bits : Nat) (refs : List Cell) :
    Except CellError Cell := do
  checkLimits bits refs.length
  Layout.require ((bits + 7) / 8 ≤ data.length) (.dataTooShort data.length bits)
  make kind ((Bits.ofBytes data).take bits) refs

/-- The ordinary cell that holds nothing. -/
def empty : Cell :=
  let hash : LevelHash := ⟨sha256 [0, 0], 0⟩
  .mk .ordinary [] [] .empty ⟨hash, hash, hash, hash⟩

instance : Inhabited Cell := ⟨empty⟩

/-! ## Laws -/

/-- What a made cell consists of. -/
theorem make_eq_ok_iff {kind : CellKind} {bits : Bits} {refs : List Cell} {cell : Cell} :
    make kind bits refs = .ok cell ↔
      bits.length ≤ maxBits ∧ refs.length ≤ maxRefs ∧ ∃ mask hashes,
        Layout.mask kind bits refs = .ok mask ∧ computeHashes kind mask bits refs = .ok hashes ∧
          cell = .mk kind bits refs mask hashes := by
  unfold make checkLimits
  by_cases hb : bits.length > maxBits
  · have hb' : ¬ bits.length ≤ maxBits := by omega
    simp [hb, hb', bind, Except.bind, throw, throwThe, MonadExceptOf.throw]
  by_cases hr : refs.length > maxRefs
  · have hr' : ¬ refs.length ≤ maxRefs := by omega
    simp [hb, hr, hr', bind, Except.bind, throw, throwThe, MonadExceptOf.throw]
  cases hm : Layout.mask kind bits refs with
  | error e => simp [hb, hr, bind, Except.bind, pure, Except.pure]
  | ok mask =>
    cases hh : computeHashes kind mask bits refs with
    | error e => simp [hb, hr, hh, bind, Except.bind, pure, Except.pure]
    | ok hashes =>
      simp only [hb, hr, hh, bind, Except.bind, pure, Except.pure, if_false, Except.ok.injEq]
      constructor
      · rintro rfl; exact ⟨by omega, by omega, mask, hashes, rfl, hh, rfl⟩
      · rintro ⟨-, -, mask', hashes', rfl, hh', rfl⟩
        rw [hh] at hh'; cases hh'; rfl

theorem kind_make {kind : CellKind} {bits : Bits} {refs : List Cell} {cell : Cell}
    (h : make kind bits refs = .ok cell) : cell.kind = kind := by
  obtain ⟨-, -, _, _, -, -, rfl⟩ := make_eq_ok_iff.mp h; rfl

theorem bits_make {kind : CellKind} {bits : Bits} {refs : List Cell} {cell : Cell}
    (h : make kind bits refs = .ok cell) : cell.bits = bits := by
  obtain ⟨-, -, _, _, -, -, rfl⟩ := make_eq_ok_iff.mp h; rfl

theorem refs_make {kind : CellKind} {bits : Bits} {refs : List Cell} {cell : Cell}
    (h : make kind bits refs = .ok cell) : cell.refs = refs := by
  obtain ⟨-, -, _, _, -, -, rfl⟩ := make_eq_ok_iff.mp h; rfl

end BagOfCells.Cell
