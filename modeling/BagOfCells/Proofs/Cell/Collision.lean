import BagOfCells.Proofs.Cell.Made
import Mathlib.Data.List.Basic
import Mathlib.Data.List.Flatten

/-!
# Cells and their digests

The digest of a cell stands for the cell, as long as the digest has no collisions. Only the messages
that are hashed for the cells at hand matter: the message of each significant level, and of a pruned
branch that of its highest level alone. Given that no two of those have one digest, cells with equal
top hashes are equal, references and all. The first descriptor tells the count of references, the
mask and with them the kind; from the top level the messages lead down to the one over the data.

## Main definitions

* `Cell.hashed roots`: the messages hashed for the cells below some cells
* `Cell.CollisionFree roots`: no two of them have one digest
* `Cell.Collision roots`: two of them have one digest

## Main results

* `Cell.kind_eq_of_descriptor`: what the first descriptor tells
* `Cell.eq_of_hash_eq`: cells with equal hashes are equal
-/

namespace BagOfCells.Cell

/-- The messages hashed for the cells below some cells. -/
def hashed (roots : List Cell) : Set Bytes :=
  {message | ∃ cell ∈ reachable roots, ∃ level, cell.mask.isSignificant level = true ∧
    (cell.kind = .prunedBranch → level = cell.level) ∧ message = cell.message level}

/-- No two messages hashed for the cells below some cells have one digest. -/
def CollisionFree (roots : List Cell) : Prop :=
  ∀ a ∈ hashed roots, ∀ b ∈ hashed roots, sha256 a = sha256 b → a = b

/-- Two different messages hashed for the cells below some cells have one digest. -/
def Collision (roots : List Cell) : Prop :=
  ∃ a ∈ hashed roots, ∃ b ∈ hashed roots, a ≠ b ∧ sha256 a = sha256 b

theorem collision_or_free (roots : List Cell) : Collision roots ∨ CollisionFree roots := by
  by_cases h : Collision roots
  · exact .inl h
  · right
    intro a ha b hb hs
    by_contra hne
    exact h ⟨a, ha, b, hb, hne, hs⟩

/-! ## Pieces of a message -/

theorem map_eq_of_flatMap_eq {α β : Type} {f g : α → List β} {size : Nat}
    (hf : ∀ a, (f a).length = size) (hg : ∀ a, (g a).length = size) {as bs : List α}
    (hl : as.length = bs.length) (h : as.flatMap f = bs.flatMap g) : as.map f = bs.map g := by
  rw [List.eq_iff_flatten_eq]
  refine ⟨by simpa only [List.flatMap] using h, ?_⟩
  simp only [List.map_map, Function.comp_def, hf, hg, List.map_const', hl]

theorem eq_of_map_eq {α β : Type} {f : α → β} {as bs : List α} (h : as.map f = bs.map f)
    (inj : ∀ a ∈ as, ∀ b ∈ bs, f a = f b → a = b) : as = bs := by
  induction as generalizing bs with
  | nil => exact (List.map_eq_nil_iff.mp h.symm).symm
  | cons a as ih =>
    rcases bs with _ | ⟨b, bs⟩
    · cases h
    · obtain ⟨hh, ht⟩ := List.cons.inj h
      rw [inj a List.mem_cons_self b List.mem_cons_self hh,
        ih ht fun a ha b hb => inj a (List.mem_cons_of_mem _ ha) b (List.mem_cons_of_mem _ hb)]

/-- Two equal messages with bodies of one size agree piece by piece. -/
theorem preimage_inj {first first' second second' : UInt8} {body body' : Bytes}
    {refs refs' : List Cell} {child child' : Nat} (hb : body.length = body'.length)
    (hr : refs.length = refs'.length)
    (h : preimage first second body refs child = preimage first' second' body' refs' child') :
    body = body' ∧
      refs.map (fun ref => Bytes.ofNat 2 (ref.depthAt child)) =
        refs'.map (fun ref => Bytes.ofNat 2 (ref.depthAt child')) ∧
      refs.map (·.hashAt child) = refs'.map (·.hashAt child') := by
  simp only [preimage, List.cons_append, List.cons.injEq, List.append_assoc] at h
  obtain ⟨rfl, hrest⟩ := List.append_inj h.2.2 hb
  have hd := List.append_inj hrest (by simp only [List.length_flatMap, Bytes.length_ofNat,
    List.map_const', hr])
  have hh := map_eq_of_flatMap_eq (fun ref => (hashAt ref child).length_bytes)
    (fun ref => (hashAt ref child').length_bytes) hr hd.2
  refine ⟨rfl, map_eq_of_flatMap_eq (fun _ => Bytes.length_ofNat ..)
    (fun _ => Bytes.length_ofNat ..) hr hd.1, ?_⟩
  have hm : List.map Digest.bytes (refs.map (·.hashAt child)) =
      List.map Digest.bytes (refs'.map (·.hashAt child')) := by
    simpa only [List.map_map, Function.comp_def] using hh
  exact eq_of_map_eq hm fun a _ b _ => digest_eq

/-! ## What the descriptors tell -/

section

variable {a b : Cell}

theorem descriptorAt_toNat (h : a.Sound) (level : Nat) :
    (a.descriptorAt level).toNat =
      refsDescriptor a.refs.length a.isExotic (a.mask.upTo level) :=
  Nat.mod_eq_of_lt (refsDescriptor_lt h.refs_le _ _)

theorem descriptor_inj {refs refs' : Nat} (hr : refs ≤ maxRefs) (hr' : refs' ≤ maxRefs)
    {exotic exotic' : Bool} {mask mask' : LevelMask}
    (h : refsDescriptor refs exotic mask = refsDescriptor refs' exotic' mask') :
    refs = refs' ∧ exotic = exotic' ∧ mask = mask' := by
  obtain ⟨hrefs, -, hexotic, hmask⟩ := refsDescriptor_fields hr exotic mask
  obtain ⟨hrefs', -, hexotic', hmask'⟩ := refsDescriptor_fields hr' exotic' mask'
  rw [h] at hrefs hexotic hmask
  refine ⟨hrefs.symm.trans hrefs', hexotic.symm.trans hexotic', ?_⟩
  rw [← LevelMask.ofNat_toNat mask, ← hmask, hmask', LevelMask.ofNat_toNat]

/-- The first descriptor tells the kind: exotic cells of different kinds differ in their count of
references or in having a mask. -/
theorem kind_eq_of_descriptor (ha : a.Sound) (hb : b.Sound)
    (hr : a.refs.length = b.refs.length) (he : a.isExotic = b.isExotic) (hm : a.mask = b.mask) :
    a.kind = b.kind := by
  have hsa := ha.suits
  have hsb := hb.suits
  unfold isExotic at he
  -- with references and mask agreeing, the layouts of two different exotic kinds contradict
  cases hka : a.kind <;> cases hkb : b.kind <;> simp only [hka, hkb] at he hsa hsb <;>
    first
    | rfl
    | (simp only [Layout.Suits] at hsa hsb; grind [CellKind.isExotic])

theorem bitsDescriptor_inj {bits bits' : Nat} (hb : bits ≤ maxBits) (hb' : bits' ≤ maxBits)
    (h : bitsDescriptorByte bits = bitsDescriptorByte bits') :
    bitsDescriptor bits = bitsDescriptor bits' := by
  unfold maxBits at hb hb'
  have := congrArg UInt8.toNat h
  simp only [bitsDescriptorByte, UInt8.toNat_ofNat', bitsDescriptor] at this ⊢
  omega

/-- The second descriptor and the tagged data tell the data. -/
theorem bits_eq_of_tagged (hd : bitsDescriptor a.bits.length = bitsDescriptor b.bits.length)
    (ht : a.tagged = b.tagged) : a.bits = b.bits := by
  unfold bitsDescriptor at hd
  have hl : a.bits.length = b.bits.length := by
    by_cases h : a.bits.length % 8 = 0
    · omega
    · -- both have a tag, and the zeros behind it tell how many bits the last byte holds
      have h' : b.bits.length % 8 ≠ 0 := by omega
      obtain ⟨last, hlast, hz⟩ := Bits.getLast?_complete h
      obtain ⟨last', hlast', hz'⟩ := Bits.getLast?_complete h'
      rw [tagged] at ht
      rw [ht, tagged, hlast'] at hlast
      cases hlast
      omega
  rw [← Bits.take_ofBytes_complete a.bits, ← Bits.take_ofBytes_complete b.bits, hl]
  exact congrArg (fun bytes => (Bits.ofBytes bytes).take b.bits.length) ht

/-! ## Down the levels -/

variable {roots : List Cell}

theorem length_body (cell : Cell) (level : Nat) :
    (cell.body level).length =
      if level = 0 ∨ cell.kind = .prunedBranch then (cell.bits.length + 7) / 8 else 32 := by
  unfold body tagged
  split
  · exact Bits.length_pack_complete _
  · exact Digest.length_bytes _

/-- Equal messages of two cells of one kind agree in their bodies and in what they say of the
children. -/
theorem message_inj (ha : a.Sound) (hb : b.Sound) (hk : a.kind = b.kind)
    (hr : a.refs.length = b.refs.length) {level : Nat} (h : a.message level = b.message level) :
    bitsDescriptor a.bits.length = bitsDescriptor b.bits.length ∧ a.body level = b.body level ∧
      a.refs.map (fun ref => Bytes.ofNat 2 (ref.depthAt (childLevel a.kind level))) =
        b.refs.map (fun ref => Bytes.ofNat 2 (ref.depthAt (childLevel a.kind level))) ∧
      a.refs.map (·.hashAt (childLevel a.kind level)) =
        b.refs.map (·.hashAt (childLevel a.kind level)) := by
  have hd : bitsDescriptor a.bits.length = bitsDescriptor b.bits.length := by
    simp only [message, preimage, List.cons_append, List.cons.injEq] at h
    exact bitsDescriptor_inj ha.bits_le hb.bits_le h.2.1
  have hl : (a.body level).length = (b.body level).length := by
    rw [length_body, length_body, hk]
    unfold bitsDescriptor at hd
    split <;> omega
  rw [message, message, ← hk] at h
  exact ⟨hd, preimage_inj hl hr h⟩

/-- From a significant level with one message the chain of hashes leads down to the data. -/
theorem tagged_eq_of_message_eq (free : CollisionFree roots) (hra : a ∈ reachable roots)
    (hrb : b ∈ reachable roots) (ha : a.Sound) (hb : b.Sound) (hk : a.kind = b.kind)
    (hm : a.mask = b.mask) (hr : a.refs.length = b.refs.length) {level : Nat}
    (h : a.message level = b.message level) : a.tagged = b.tagged := by
  induction level using Nat.strong_induction_on with
  | _ level ih =>
    obtain ⟨-, hbody, -⟩ := message_inj ha hb hk hr h
    unfold body at hbody
    rw [← hk, ← hm] at hbody
    split at hbody
    · exact hbody
    · next hn =>
      obtain ⟨hl, hp⟩ := not_or.mp hn
      -- the significant level below has one message too, since its hash is the same
      apply ih (a.mask.floor (level - 1)) (lt_of_le_of_lt LevelMask.floor_le (by omega))
      have hsa := a.mask.isSignificant_floor (level - 1)
      have hsb : b.mask.isSignificant (a.mask.floor (level - 1)) = true := hm ▸ hsa
      have hha := ha.hashAt_eq hp hsa
      have hhb := hb.hashAt_eq (hk ▸ hp) hsb
      apply free _ ⟨a, hra, _, hsa, fun h => absurd h hp, rfl⟩
        _ ⟨b, hrb, _, hsb, fun h => absurd (hk ▸ h) hp, rfl⟩
      rw [← hha, ← hhb]
      exact digest_eq hbody

theorem mem_hashed_top {cell : Cell} (h : cell ∈ reachable roots) :
    cell.message cell.level ∈ hashed roots :=
  ⟨cell, h, cell.level, LevelMask.isSignificant_level, fun _ => rfl, rfl⟩

/-- **Cells with equal hashes are equal**, down to the last reference, as long as no two of the
messages hashed for them have one digest. -/
theorem eq_of_hash_eq (made : ∀ root ∈ roots, Made root) (free : CollisionFree roots)
    (hra : a ∈ reachable roots) (hrb : b ∈ reachable roots) (h : a.hash = b.hash) : a = b := by
  induction a using induction_refs generalizing b with
  | step a ih =>
    have hma := made_of_reachable made hra
    have hmb := made_of_reachable made hrb
    have ha := hma.sound
    have hb := hmb.sound
    rw [ha.top_eq.1, hb.top_eq.1] at h
    have hmsg := free _ (mem_hashed_top hra) _ (mem_hashed_top hrb) h
    have hfirst : a.descriptorAt a.level = b.descriptorAt b.level := (List.cons.inj hmsg).1
    have hdesc := congrArg UInt8.toNat hfirst
    rw [descriptorAt_toNat ha, descriptorAt_toNat hb, level, level, LevelMask.upTo_level,
      LevelMask.upTo_level] at hdesc
    obtain ⟨hr, he, hm⟩ := descriptor_inj ha.refs_le hb.refs_le hdesc
    have hk := kind_eq_of_descriptor ha hb hr he hm
    have hl : a.level = b.level := congrArg LevelMask.level hm
    rw [← hl] at hmsg
    obtain ⟨hbd, -, -, hchildren⟩ := message_inj ha hb hk hr hmsg
    have htagged := tagged_eq_of_message_eq free hra hrb ha hb hk hm hr hmsg
    refine ha.eq hb hk (bits_eq_of_tagged hbd htagged) ?_
    -- every child shows its top hash at the level where the children are read
    have htop (cell : Cell) (hmade : cell.Made) (hck : cell.kind = a.kind)
        (hcl : cell.level = a.level) (ref : Cell) (href : ref ∈ cell.refs) :
        ref.hashAt (childLevel a.kind a.level) = ref.hash := by
      rw [← hck, ← hcl]
      exact ((hmade.refs href).sound.get_top (hmade.sound.suits.level_le href)).1
    apply eq_of_map_eq hchildren
    intro ref href ref' href' heq
    rw [htop a hma rfl rfl ref href, htop b hmb hk.symm hl.symm ref' href'] at heq
    exact ih ref href (reachable_ref hra href) (reachable_ref hrb href') heq

end

end BagOfCells.Cell
