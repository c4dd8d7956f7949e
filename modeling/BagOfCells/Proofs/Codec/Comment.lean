import BagOfCells.Proofs.Codec.Placement
import BagOfCells.Proofs.Wire.Snake

/-!
# Comments on transfers

A transfer of tokens can carry a comment for whoever receives them. The comment is a cell of its
own: 32 zero bits, then the bytes of the text as a snake, of which 123 have room behind the zeros
and the others follow in a chain of cells. The cell is the payload of the transfer, which takes it
inline where its bits and references have room behind the other fields, and as a reference else.

What is built of a transfer by setting its fields is a value that its codec returns, so the comment
comes back with it; and the fields in front of the payload never leave less than a hundred bits, so
that the reference at least has room. Its depth is what a comment can be too long for.

## Main definitions

* `JettonTransfer.Built`: the transfers that are built by setting fields
* `JettonTransfer.IsComment`: what the cell of a comment is
* `JettonTransfer.readComment`: how a comment is read

## Main results

* `Builder.exists_endCell_either`: a payload finds a place behind bits that leave room for one more
* `JettonTransfer.exists_comment`: a comment has a cell
* `JettonTransfer.IsComment.read`: a comment is read from its cell
* `JettonTransfer.comment_survives`: a transfer that is built keeps its comment
-/

namespace BagOfCells

open Outcome

namespace Builder

/-- A store puts down some bits, `n` at most, and no references. -/
def PutsUpTo (store : Store) (n : Nat) : Prop :=
  ∃ bits : Bits, bits.length ≤ n ∧ Puts store bits []

variable {store next : Store} {m n : Nat}

theorem Puts.upTo {bits : Bits} (h : Puts store bits []) (hn : bits.length ≤ n) :
    PutsUpTo store n :=
  ⟨bits, hn, h⟩

/-- **One after the other**, at most as many as both. -/
theorem PutsUpTo.bind (h : PutsUpTo store m) (hn : PutsUpTo next n) :
    PutsUpTo (do store; next) (m + n) := by
  obtain ⟨bits, hbits, hput⟩ := h
  obtain ⟨bits', hbits', hput'⟩ := hn
  refine ⟨bits ++ bits', ?_, hput.bind hput'⟩
  rw [List.length_append]
  exact Nat.add_le_add hbits hbits'

/-- A length of four bits and fifteen bytes. -/
theorem upTo_storeCoins {amount : Nat} (h : amount < 2 ^ 120) :
    PutsUpTo (storeCoins amount) 124 := by
  have hsize : Bits.size amount ≤ 120 := Bits.size_le_iff_lt.mpr h
  have hlength : Bits.size ((Bits.size amount + 7) / 8) ≤ 4 :=
    Bits.size_le_iff_lt.mpr (by omega)
  refine Puts.upTo (puts_storeVarNat hlength) ?_
  rw [← length_varNat]
  omega

theorem upTo_storeAddress (address? : Option Address) :
    PutsUpTo (storeAddress address?) Address.width := by
  cases address? with
  | none =>
    have hput : Puts (storeAddress none) [false, false] [] := puts_storeWord (by decide)
    exact hput.upTo (by decide)
  | some address => exact (puts_storeAddress address).upTo (length_address address).ge

/-- **A payload finds a place** behind bits that leave room for one more: inline, or in a reference
unless it is as deep as a cell can be. -/
theorem exists_endCell_either {bits : Bits} (hbits : bits.length < Cell.maxBits) {payload : Cell}
    (made : payload.Made) (hk : payload.kind = .ordinary)
    (hdepth : ∀ level, payload.depthAt level < Cell.maxDepth) :
    ∃ b cell, storeEither payload ⟨bits, []⟩ = .ok () b ∧ b.endCell = .ok cell := by
  have hexotic : payload.isExotic = false := by simp [Cell.isExotic, CellKind.isExotic, hk]
  rw [storeEither_eq hexotic]
  split
  · next hroom =>
    -- the references are those of the payload, so the cell is as deep
    have hfit : payload.bits.length + 1 ≤ Cell.maxBits - bits.length := (canFit_iff.mp hroom).1
    have hinline : (bits ++ false :: payload.bits).length ≤ Cell.maxBits := by
      rw [List.length_append, List.length_cons]
      omega
    obtain ⟨cell, hmake, -⟩ := made.sound.exists_make_ordinary hk hinline
    exact ⟨_, cell, rfl, hmake⟩
  · have hone : [payload].length ≤ Cell.maxRefs := show 1 ≤ 4 by decide
    have hroom : canFit ⟨bits, []⟩ [true].length [payload].length = true :=
      canFit_iff.mpr ⟨Nat.le_sub_of_add_le (Nat.add_comm 1 _ ▸ hbits), hone⟩
    have hselector : (bits ++ [true]).length ≤ Cell.maxBits := by
      rw [List.length_append]
      exact hbits
    have hover : ∀ level, Cell.depthOver (some payload).toList level ≤ Cell.maxDepth := by
      refine Snake.depthOver_toList_le ?_
      rintro _ ⟨⟩
      exact hdepth
    obtain ⟨cell, hmake, -⟩ := Cell.exists_make hselector hone hover le_rfl
    exact ⟨_, cell, append_eq_ok_iff.mpr ⟨hroom, rfl⟩, hmake⟩

end Builder

/-- At the end of a cell nothing is left. -/
theorem PackedSlice.endParse_finish {s : PackedSlice} (hs : s.WellFormed) :
    endParse s.finish = .ok () s.finish := by
  have hfinish := hs.ahead_finish.wellFormed
  rw [endParse, run_bind_of_ok (remainingBits_eq hfinish),
    run_bind_of_ok (remainingRefs_eq hfinish), unpack_finish]
  rfl

namespace JettonTransfer

/-! ## Transfers that are built -/

/-- A transfer is built from addresses without flags of their own by what can be set of it. -/
inductive Built : JettonTransfer → Prop where
  | new {destination : Address} (plain : destination.plain = destination) (amount : Nat) :
    Built (.new destination amount)
  | queryId {t : JettonTransfer} (h : Built t) (queryId : UInt64) : Built (t.withQueryId queryId)
  | responseDestination {t : JettonTransfer} (h : Built t) {address : Address}
    (plain : address.plain = address) : Built (t.withResponseDestination address)
  | forwardAmount {t : JettonTransfer} (h : Built t) (amount : Nat) :
    Built (t.withForwardAmount amount)
  | forwardPayload {t : JettonTransfer} (h : Built t) (payload : Cell) :
    Built (t.withForwardPayload payload)
  | comment {t u : JettonTransfer} (h : Built t) {text : String}
    (commented : t.withComment text = .ok u) : Built u

/-- The addresses of a transfer have no flags of their own, and it has nothing for the wallet. -/
structure Simple (t : JettonTransfer) : Prop where
  destination : t.destination.plain = t.destination
  response : ∀ address ∈ t.responseDestination, address.plain = address
  custom : t.customPayload = none

variable {t u : JettonTransfer} {text : String}

theorem withComment_eq_ok_iff :
    t.withComment text = .ok u ↔
      ∃ cell, comment text = .ok cell ∧ u = t.withForwardPayload cell := by
  rw [withComment, bind_eq_ok_iff]
  simp only [pure_eq_ok_iff, eq_comm (b := u)]

/-- **What is built is simple**, whatever is set. -/
theorem Built.simple (h : t.Built) : t.Simple := by
  induction h with
  | new plain amount => exact ⟨plain, nofun, rfl⟩
  | queryId _ _ ih => exact ⟨ih.destination, ih.response, ih.custom⟩
  | responseDestination _ plain ih =>
    exact ⟨ih.destination, fun _ haddress => Option.some.inj haddress ▸ plain, ih.custom⟩
  | forwardAmount _ _ ih => exact ⟨ih.destination, ih.response, ih.custom⟩
  | forwardPayload _ _ ih => exact ⟨ih.destination, ih.response, ih.custom⟩
  | comment _ commented ih =>
    obtain ⟨cell, -, rfl⟩ := withComment_eq_ok_iff.mp commented
    exact ⟨ih.destination, ih.response, ih.custom⟩

/-! ## The cell of a comment -/

/-- The bytes of a comment for which its first cell has no room: 123 bytes fit behind the zeros. -/
def commentRest (text : String) : List UInt8 :=
  text.toUTF8.toList.drop 123

/-- How many cells hold a comment: the first one, and one for each link of the chain. -/
def commentCells (text : String) : Nat :=
  1 + (Snake.links (commentRest text)).length

/-- A cell holds a comment: the zeros, as many bytes as fit behind them, and the chain of the
others. It is as deep as the chain is long. -/
structure IsComment (text : String) (cell : Cell) : Prop where
  made : cell.Made
  kind : cell.kind = .ordinary
  bits : cell.bits = List.replicate 32 false ++ Bits.ofBytes (text.toUTF8.toList.take 123)
  tail : Snake.Tail (commentRest text) cell.refs
  depth : ∀ level, cell.depthAt level ≤ (Snake.links (commentRest text)).length

/-- The zeros in front of a comment. -/
def zeros : Builder := ⟨List.replicate 32 false, []⟩

/-- **A comment has a cell** when the chain behind the first one has fewer than 65536. -/
theorem exists_comment (short : (Snake.links (commentRest text)).length < 65536) :
    ∃ cell, comment text = .ok cell ∧ IsComment text cell := by
  obtain ⟨next, hnext, htail, hcells⟩ := Snake.exists_tail short
  obtain ⟨next', hnext', hdepth⟩ := Snake.exists_chain
    (fun _ => PackedBuilder.length_le_of_mem_links) short
  -- what holds the bytes and what bounds the depth is one chain
  obtain rfl : next = next' := Except.ok.inj (hnext.symm.trans hnext')
  have hzeros : Builder.storeLowBits 0 32 .empty = .ok () zeros :=
    (Builder.puts_storeLowBits 0 (by decide) _ _ Builder.inLimits_empty).mpr ⟨rfl, rfl⟩
  have hlimits : zeros.InLimits := ⟨by decide, by decide⟩
  have hrefs : zeros.refs.length + next.toList.length ≤ Cell.maxRefs := by
    have hle := PackedBuilder.length_toList_le next
    rw [zeros, List.length_nil, Nat.zero_add]
    exact hle.trans (by decide)
  have hstore := (Builder.storeSnake_eq_ok_iff hlimits hnext).mpr ⟨hrefs, rfl⟩
  have hbehind : (zeros.behind (Bits.ofBytes (text.toUTF8.toList.take zeros.availableBytes))
    next.toList).InLimits := hlimits.behind_take hrefs
  obtain ⟨cell, hmake, hcell⟩ := Cell.exists_make hbehind.1 hbehind.2
    (Snake.depthOver_toList_le hdepth) (Nat.le_of_lt_succ short)
  refine ⟨cell, ?_, ?_, Cell.kind_make hmake, Cell.bits_make hmake, ?_, hcell⟩
  · rw [comment, Builder.build,
      Builder.run_eq_ok_iff.mpr ((run_bind_of_ok hzeros).trans hstore)]
    exact hmake
  · refine Cell.made_iff.mpr ⟨Cell.sound_of_make hmake, fun ref href => (hcells ref ?_).1⟩
    rwa [Cell.refs_make hmake] at href
  · rw [Cell.refs_make hmake]
    exact htail

/-- Reads a comment to its end: a word of 32 bits and a text. -/
def readComment : PackedLoad (UInt64 × String) := do
  let word ← PackedSlice.loadWord 32
  let text ← PackedSlice.loadSnakeString
  PackedSlice.endParse
  return (word, text)

/-- **A comment is read** from its cell. -/
theorem IsComment.read {cell : Cell} (h : IsComment text cell) :
    readComment (.ofCell cell) = .ok (0, text) (PackedSlice.ofCell cell).finish := by
  have hs := PackedSlice.wellFormed_ofCell h.made
  have hlength : 32 ≤ cell.bits.length := by
    rw [h.bits, List.length_append, List.length_replicate]
    exact Nat.le_add_right ..
  have hword : PackedSlice.loadWord 32 (.ofCell cell) = .ok 0 ⟨cell, 32, 0⟩ := by
    have htake : (PackedSlice.ofCell cell).unpack.bits.take 32 = List.replicate 32 false := by
      change cell.bits.take 32 = _
      rw [h.bits, List.take_left' List.length_replicate]
    have htakes : PackedSlice.Takes (PackedSlice.loadWord 32) 32 Bits.toWord :=
      PackedSlice.takes_word (by decide)
    rw [htakes _ hs, if_pos (show 32 ≤ (PackedSlice.ofCell cell).unpack.bits.length from hlength),
      htake]
    rfl
  have hsnake : PackedSlice.loadSnake ⟨cell, 32, 0⟩ =
      .ok text.toUTF8.toList (PackedSlice.ofCell cell).finish := by
    refine PackedSlice.loadSnake_of_ok h.made hlength (Nat.zero_le _) ?_
    rw [h.bits, List.drop_left' List.length_replicate, List.drop_zero,
      Slice.loadSnake_of_tail h.tail, commentRest, List.take_append_drop]
  rw [readComment, run_bind_of_ok hword,
    run_bind_of_ok (PackedSlice.loadSnakeString_of_ok hsnake),
    run_bind_of_ok (PackedSlice.endParse_finish hs)]
  rfl

/-! ## The cell of a transfer -/

/-- Stores what a transfer holds in front of its payload. -/
def storeHead (t : JettonTransfer) : Store := do
  Builder.storeWord tag 32
  Builder.storeLowBits t.queryId 64
  Codec.coins.store t.amount
  Codec.address.store t.destination
  Codec.addressOrNone.store t.responseDestination
  Builder.storeMaybeRef t.customPayload
  Codec.coins.store t.forwardAmount

theorem store_eq (t : JettonTransfer) :
    codec.store t = (do storeHead t; payloadCodec.store t.forwardPayload) := by
  simp only [codec, Codec.tagged, bodyCodec, storeHead, bind_assoc]

/-- **What is in front of the payload** leaves a cell room for more than a hundred bits. -/
theorem upTo_storeHead (simple : t.Simple) (hamount : t.amount < 2 ^ 120)
    (hforward : t.forwardAmount < 2 ^ 120) : Builder.PutsUpTo (storeHead t) 879 := by
  have htag : Builder.PutsUpTo (Builder.storeWord tag 32) 32 :=
    (Builder.puts_storeWord (by decide)).upTo (Bits.length_ofNat ..).le
  have hquery : Builder.PutsUpTo (Builder.storeLowBits t.queryId 64) 64 :=
    (Builder.puts_storeLowBits t.queryId le_rfl).upTo (Bits.length_ofNat ..).le
  have hcustom : Builder.PutsUpTo (Builder.storeMaybeRef none) 1 :=
    (Builder.puts_storeMaybeRef none).upTo le_rfl
  have hamounts := Builder.upTo_storeCoins hamount
  have hdestination := Builder.upTo_storeAddress (some t.destination)
  have hresponse := Builder.upTo_storeAddress t.responseDestination
  have hforwards := Builder.upTo_storeCoins hforward
  -- 32 + (64 + (124 + (267 + (267 + (1 + 124)))))
  rw [storeHead, simple.custom]
  exact htag.bind <| hquery.bind <| hamounts.bind <| hdestination.bind <| hresponse.bind <|
    hcustom.bind hforwards

/-- **A comment finds a place** behind what is in front of it. -/
theorem exists_toCell (simple : t.Simple) (hamount : t.amount < 2 ^ 120)
    (hforward : t.forwardAmount < 2 ^ 120) (h : IsComment text t.forwardPayload)
    (short : commentCells text < 65536) : ∃ cell, codec.toCell t = .ok cell := by
  obtain ⟨bits, hbits, hput⟩ := upTo_storeHead simple hamount hforward
  have hroom : bits.length < Cell.maxBits := hbits.trans_lt (by decide)
  have hhead : storeHead t .empty = .ok () ⟨bits, []⟩ := by
    refine (hput _ _ Builder.inLimits_empty).mpr ⟨?_, rfl⟩
    exact Builder.canFit_iff.mpr ⟨hroom.le, by decide⟩
  have hlinks : (Snake.links (commentRest text)).length < Cell.maxDepth :=
    Nat.lt_of_succ_lt_succ ((Nat.add_comm 1 _).symm.trans_lt short)
  obtain ⟨b, cell, hstore, hcell⟩ := Builder.exists_endCell_either hroom h.made h.kind
    fun level => (h.depth level).trans_lt hlinks
  have hexotic : t.forwardPayload.isExotic = false := by
    simp [Cell.isExotic, CellKind.isExotic, h.kind]
  rw [← (Builder.store_either_eq h.made hexotic).1] at hstore
  refine ⟨cell, ?_⟩
  rw [Codec.toCell, store_eq, Builder.build,
    Builder.run_eq_ok_iff.mpr ((run_bind_of_ok hhead).trans hstore)]
  exact hcell

/-- **Comments survive.** A transfer that is built takes a comment whose chain, behind the first
cell, has fewer than 65536 cells. Whatever cell the transfer then gets, it is read back from it, and
the payload is read as a zero, the text and the end. Amounts of at most fifteen bytes give it a
cell: for that there may be fewer than 65536 cells with the first one, as the payload can be a
reference of the cell of the transfer, which is one deeper. -/
theorem comment_survives (built : t.Built)
    (short : (Snake.links (commentRest text)).length < 65536) :
    ∃ u, t.withComment text = .ok u ∧
      (∀ cell, codec.toCell u = .ok cell → codec.ofCell cell = .ok u) ∧
      readComment (.ofCell u.forwardPayload) =
        .ok (0, text) (PackedSlice.ofCell u.forwardPayload).finish ∧
      (commentCells text < 65536 → u.amount < 2 ^ 120 → u.forwardAmount < 2 ^ 120 →
        ∃ cell, codec.toCell u = .ok cell) := by
  obtain ⟨payload, hpayload, hcomment⟩ := exists_comment short
  have hu : t.withComment text = .ok (t.withForwardPayload payload) :=
    withComment_eq_ok_iff.mpr ⟨payload, hpayload, rfl⟩
  have simple := (built.comment hu).simple
  have valid : (t.withForwardPayload payload).Valid := by
    refine ⟨simple.destination, simple.response, ?_, hcomment.made⟩
    rw [simple.custom]
    nofun
  exact ⟨_, hu, fun cell hcell => (returns_codec valid).ofCell_toCell hcell, hcomment.read,
    fun hcells hamount hforward => exists_toCell simple hamount hforward hcomment hcells⟩

/-- Of 130 bytes, 123 follow the zeros, and a character is parted. -/
theorem comment_survives_parted : ∃ u cell,
    (JettonTransfer.new (.ofParts 0 (.ofBytes [0xab])) 1000).withComment ("".pushn 'é' 65) = .ok u ∧
      codec.toCell u = .ok cell ∧ codec.ofCell cell = .ok u ∧
      readComment (.ofCell u.forwardPayload) =
        .ok (0, "".pushn 'é' 65) (PackedSlice.ofCell u.forwardPayload).finish := by
  have hrest : commentRest ("".pushn 'é' 65) = [0xa9, 0xc3, 0xa9, 0xc3, 0xa9, 0xc3, 0xa9] := by
    decide +kernel
  have hlinks : (Snake.links (commentRest ("".pushn 'é' 65))).length = 1 := by
    rw [hrest]
    simp [Snake.links, Snake.linkBytes, Cell.maxBits]
  have hcells : commentCells ("".pushn 'é' 65) < 65536 := by
    rw [commentCells, hlinks]
    decide
  have built : (JettonTransfer.new (.ofParts 0 (.ofBytes [0xab])) 1000).Built := .new rfl 1000
  obtain ⟨u, hu, hback, hread, hcell⟩ := comment_survives built (hlinks.trans_lt (by decide))
  obtain ⟨payload, -, rfl⟩ := withComment_eq_ok_iff.mp hu
  obtain ⟨cell, hcell⟩ :=
    hcell hcells (show 1000 < 2 ^ 120 by decide) (show 0 < 2 ^ 120 by decide)
  exact ⟨_, cell, hu, hcell, hback cell hcell, hread⟩

end JettonTransfer

end BagOfCells
