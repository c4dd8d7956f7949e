import BagOfCells.Proofs.Cell.Pruning

/-!
# What a Merkle proof proves

A Merkle proof stores the hash of a tree at level 0 above a tree with some subtrees cut off. Whoever
holds the proof and that hash learns the cells that are left: along every path through ordinary
cells the cut tree and the whole one agree, up to where a pruned branch stops the path, and there
the hash is still that of the subtree cut off. All of this is read off the messages hashed at level
0. They show no mask, so they are alike in both trees although the hashes above level 0 are not.

## Main definitions

* `Cell.Unpruned`: a tree without pruned branches
* `Cell.AgreesAtZero`: two cells differ at most in what is below them and above level 0

## Main results

* `Cell.agreesAtZero_of_hashAt_eq`: the hash at level 0 determines a cell but for its references
* `Cell.at?_of_hashAt_zero_eq`: two trees with one hash at level 0 agree along a path
* `Cell.merkleProof_sound`: what is below a Merkle proof is in the tree whose hash it stores
-/

namespace BagOfCells.Cell

/-- No cell of a tree is a pruned branch. -/
def Unpruned (tree : Cell) : Prop :=
  ∀ cell, Reaches tree cell → cell.kind ≠ .prunedBranch

theorem unpruned_iff {tree : Cell} :
    tree.Unpruned ↔ tree.kind ≠ .prunedBranch ∧ ∀ ref ∈ tree.refs, ref.Unpruned := by
  constructor
  · intro h
    refine ⟨h tree .refl, ?_⟩
    intro ref href cell hr
    exact h cell (hr.head href)
  · rintro ⟨hk, hrefs⟩ cell hr
    rcases reaches_iff.mp hr with rfl | ⟨ref, href, hr⟩
    · exact hk
    · exact hrefs ref href cell hr

/-- Two cells have the same kind, the same bits and as many references, and show the same hash and
depth at level 0. -/
structure AgreesAtZero (a b : Cell) : Prop where
  kind : a.kind = b.kind
  bits : a.bits = b.bits
  refs : a.refs.length = b.refs.length
  hash : a.hashAt 0 = b.hashAt 0
  depth : a.depthAt 0 = b.depthAt 0

/-! ## One cell -/

section

variable {a b : Cell}

/-- The bits of an exotic cell begin with the byte of its kind. -/
theorem Sound.kind_eq_of_bits_eq (ha : a.Sound) (hb : b.Sound) (he : a.isExotic = b.isExotic)
    (h : a.bits = b.bits) : a.kind = b.kind := by
  have hordinary (kind : CellKind) (hn : kind.typeByte? = none) : kind = .ordinary := by
    cases kind <;> first | rfl | cases hn
  unfold isExotic at he
  cases ht : a.kind.typeByte? with
  | none =>
    have hk := hordinary _ ht
    rw [hk] at he ⊢
    cases hb : b.kind <;> rw [hb] at he <;> first | rfl | cases he
  | some byte =>
    cases ht' : b.kind.typeByte? with
    | none =>
      have hk := hordinary _ ht'
      rw [hk] at he ⊢
      cases ha : a.kind <;> rw [ha] at he <;> first | rfl | cases he
    | some byte' =>
      have hhead := (ha.begins byte ht).2
      rw [h, (hb.begins byte' ht').2] at hhead
      obtain rfl := Option.some.inj hhead
      -- one byte names one kind
      exact Option.some.inj ((CellKind.ofTypeByte?_eq_some_iff.mpr ht).symm.trans
        (CellKind.ofTypeByte?_eq_some_iff.mpr ht'))

theorem mem_hashed_zero {roots : List Cell} (h : a ∈ reachable roots)
    (hk : a.kind ≠ .prunedBranch) : a.message 0 ∈ hashed roots :=
  ⟨a, h, 0, LevelMask.isSignificant_zero, fun hp => absurd hp hk, rfl⟩

/-- Depths are told by their two bytes. -/
theorem map_depthAt_eq {refs refs' : List Cell} {child : Nat} (hs : ∀ ref ∈ refs, ref.Sound)
    (hs' : ∀ ref ∈ refs', ref.Sound)
    (h : refs.map (fun ref => Bytes.ofNat 2 (ref.depthAt child)) =
      refs'.map (fun ref => Bytes.ofNat 2 (ref.depthAt child))) :
    refs.map (·.depthAt child) = refs'.map (·.depthAt child) := by
  have hm : (refs.map (·.depthAt child)).map (Bytes.ofNat 2) =
      (refs'.map (·.depthAt child)).map (Bytes.ofNat 2) := by
    simpa only [List.map_map, Function.comp_def] using h
  have hlt {refs : List Cell} (hs : ∀ ref ∈ refs, ref.Sound) (depth : Nat)
      (hd : depth ∈ refs.map (·.depthAt child)) : depth < 256 ^ 2 := by
    obtain ⟨ref, href, rfl⟩ := List.mem_map.mp hd
    exact Nat.lt_succ_of_le ((hs ref href).depthAt_le child)
  apply eq_of_map_eq hm
  intro depth hd depth' hd' heq
  rw [← Bytes.toNat_ofNat (hlt hs depth hd), heq, Bytes.toNat_ofNat (hlt hs' depth' hd')]

/-- **One hash at level 0** is that of one cell, references aside, and of one list of hashes of the
references. -/
theorem agreesAtZero_of_hashAt_eq {roots : List Cell} (free : CollisionFree roots) (ha : Made a)
    (hb : Made b) (hra : a ∈ reachable roots) (hrb : b ∈ reachable roots)
    (hka : a.kind ≠ .prunedBranch) (hkb : b.kind ≠ .prunedBranch)
    (h : a.hashAt 0 = b.hashAt 0) :
    a.AgreesAtZero b ∧ a.refs.map (·.hashAt (childLevel a.kind 0)) =
      b.refs.map (·.hashAt (childLevel a.kind 0)) := by
  obtain ⟨hhash, hdepth⟩ := ha.sound.zero_eq hka
  obtain ⟨hhash', hdepth'⟩ := hb.sound.zero_eq hkb
  have hmsg : a.message 0 = b.message 0 := by
    apply free _ (mem_hashed_zero hra hka) _ (mem_hashed_zero hrb hkb)
    rw [← hhash, h, hhash']
  -- at level 0 no mask is shown, so the first descriptor does not tell the kind
  have hfirst : a.descriptorAt 0 = b.descriptorAt 0 := (List.cons.inj hmsg).1
  have hdesc := congrArg UInt8.toNat hfirst
  rw [descriptorAt_toNat ha.sound, descriptorAt_toNat hb.sound] at hdesc
  obtain ⟨hr, he, -⟩ := descriptor_inj ha.sound.refs_le hb.sound.refs_le hdesc
  rw [message_zero, message_zero] at hmsg
  have hsecond := (List.cons.inj (List.cons.inj hmsg).2).1
  have hbd := bitsDescriptor_inj ha.sound.bits_le hb.sound.bits_le hsecond
  have hl : a.tagged.length = b.tagged.length := by
    rw [tagged, tagged, Bits.length_pack_complete, Bits.length_pack_complete]
    unfold bitsDescriptor at hbd
    omega
  obtain ⟨htagged, hdepths, hhashes⟩ := preimage_inj hl hr hmsg
  have hbits := bits_eq_of_tagged hbd htagged
  have hk := ha.sound.kind_eq_of_bits_eq hb.sound he hbits
  rw [← hk] at hdepths hhashes hdepth'
  refine ⟨⟨hk, hbits, hr, h, ?_⟩, hhashes⟩
  rw [hdepth, hdepth']
  exact depthOver_congr (map_depthAt_eq (fun ref href => (ha.refs href).sound)
    (fun ref href => (hb.refs href).sound) hdepths)

end

/-! ## Down a path -/

/-- **Two trees with one hash at level 0**, the second one without pruned branches, agree along
every path that passes ordinary cells of the first. -/
theorem at?_of_hashAt_zero_eq {roots : List Cell} (free : CollisionFree roots) {cut tree : Cell}
    (hc : Made cut) (ht : Made tree) (hrc : cut ∈ reachable roots) (hrt : tree ∈ reachable roots)
    (full : tree.Unpruned) (h : cut.hashAt 0 = tree.hashAt 0) {path : List Nat} {found : Cell}
    (hat : cut.at? path = some found) (hord : cut.OrdinaryTo path) :
    ∃ cell, tree.at? path = some cell ∧ Made found ∧ found.hashAt 0 = cell.hashAt 0 ∧
      (found.kind ≠ .prunedBranch → found.AgreesAtZero cell) := by
  induction path generalizing cut tree with
  | nil =>
    cases hat
    refine ⟨tree, rfl, hc, h, fun hk => ?_⟩
    exact (agreesAtZero_of_hashAt_eq free hc ht hrc hrt hk (unpruned_iff.mp full).1 h).1
  | cons i path ih =>
    obtain ⟨hk, hord⟩ := hord
    obtain ⟨ref, href, hat⟩ := at?_cons_eq_some_iff.mp hat
    obtain ⟨-, hhashes⟩ := agreesAtZero_of_hashAt_eq free hc ht hrc hrt (by rw [hk]; decide)
      (unpruned_iff.mp full).1 h
    -- children of an ordinary cell are read at level 0 again
    rw [hk] at hhashes
    have hi := congrArg (·[i]?) hhashes
    simp only [List.getElem?_map, href, Option.map_some] at hi
    obtain ⟨ref', href', hhash⟩ := Option.map_eq_some_iff.mp hi.symm
    obtain ⟨cell, hcell, hfound⟩ := ih (hc.getElem? href) (ht.getElem? href')
      (reachable_ref hrc (List.mem_of_getElem? href))
      (reachable_ref hrt (List.mem_of_getElem? href'))
      ((unpruned_iff.mp full).2 ref' (List.mem_of_getElem? href')) hhash.symm hat (hord ref href)
    exact ⟨cell, at?_cons_eq_some_iff.mpr ⟨ref', href', hcell⟩, hfound⟩

/-- **A Merkle proof is sound.** Let a tree without pruned branches have the hash that a Merkle
proof stores. Every path that passes ordinary cells alone below the proof is a path of the tree. The
cells at its end agree, and where the path ends in a pruned branch, the first hash stored there is
the hash of the tree's cell at level 0. Otherwise two different messages hashed for the two trees
have one digest. -/
theorem merkleProof_sound {proof cut tree : Cell} (made : Made proof)
    (hk : proof.kind = .merkleProof) (hrefs : proof.refs = [cut]) (ht : Made tree)
    (full : tree.Unpruned) (h : (proof.data.drop 1).take 32 = (tree.hashAt 0).bytes) :
    Collision [cut, tree] ∨
      ∀ path found, cut.at? path = some found → cut.OrdinaryTo path →
        ∃ cell, tree.at? path = some cell ∧
          if found.kind = .prunedBranch then (found.data.drop 2).take 32 = (cell.hashAt 0).bytes
          else found.AgreesAtZero cell := by
  rcases collision_or_free [cut, tree] with hcollision | free
  · exact .inl hcollision
  · right
    intro path found hat hord
    have hcut : Made cut := made.refs (hrefs ▸ List.mem_singleton_self cut)
    -- the layout of the proof compares the hash it stores with its child
    obtain ⟨child, hchild, -, -, hstores⟩ : Layout.Suits _ _ _ .merkleProof :=
      hk ▸ made.sound.suits
    obtain rfl : cut = child := List.singleton_inj.mp (hrefs.symm.trans hchild)
    have hhash : cut.hashAt 0 = tree.hashAt 0 := digest_eq (hstores.1.symm.trans h)
    obtain ⟨cell, hcell, hfound, hzero, hagrees⟩ := at?_of_hashAt_zero_eq free hcut ht
      (reachable_self (by simp)) (reachable_self (by simp)) full hhash hat hord
    refine ⟨cell, hcell, ?_⟩
    split
    · next hp => rw [← (hfound.sound.stored_zero hp).1, hzero]
    · next hp => exact hagrees hp

theorem unpruned_bush : bush.Unpruned := by
  have hleaf (cell : Cell) (hk : cell.kind ≠ .prunedBranch) (hr : cell.refs = []) :
      cell.Unpruned := unpruned_iff.mpr ⟨hk, by simp [hr]⟩
  have hempty : Cell.empty.Unpruned := hleaf _ (by decide) rfl
  have hshelf : shelf.Unpruned := hleaf _ (by decide) rfl
  exact unpruned_iff.mpr ⟨by decide, by simpa [bush, refs] using ⟨hempty, hshelf⟩⟩

/-- The proof of a tree shows the hash of the subtree cut off and the whole of the other one. -/
theorem merkleProof_sound_bush :
    ∃ proof, ofBytes .merkleProof (proofData bush) 280 [cutBush] = .ok proof ∧
      (Collision [cutBush, bush] ∨
        (∃ cell, bush.at? [0] = some cell ∧
          (stub.data.drop 2).take 32 = (cell.hashAt 0).bytes) ∧
        ∃ cell, bush.at? [1] = some cell ∧ shelf.AgreesAtZero cell) := by
  rcases ofBytes_proof keepsZero_cutBush with ⟨proof, hproof, -⟩ | ⟨-, hover⟩
  · have hmake := (ofBytes_eq_ok_iff.mp hproof).2
    have hdata : proof.data = proofData bush := by
      have hl : (Bits.ofBytes (proofData bush)).length = 280 := by
        rw [Bits.length_ofBytes, length_proofData]
      rw [data, bits_make hmake, List.take_of_length_le hl.le, Bits.pack_ofBytes]
    have hstored : (proof.data.drop 1).take 32 = (bush.hashAt 0).bytes := by
      rw [hdata]
      exact List.take_left' (bush.hashAt 0).length_bytes
    have hmade : Made proof := .ofBytes (by simpa using keepsZero_cutBush.made) hproof
    refine ⟨proof, hproof, ?_⟩
    rcases merkleProof_sound hmade (kind_make hmake) (refs_make hmake) made_bush unpruned_bush
      hstored with hcollision | hpaths
    · exact .inl hcollision
    · right
      obtain ⟨hole, hhole, hhash⟩ := hpaths [0] stub rfl ⟨rfl, fun _ _ => trivial⟩
      obtain ⟨cell, hcell, hagrees⟩ := hpaths [1] shelf rfl ⟨rfl, fun _ _ => trivial⟩
      exact ⟨⟨hole, hhole, hhash⟩, cell, hcell, hagrees⟩
  · exact absurd hover shallow_cutBush

end BagOfCells.Cell
