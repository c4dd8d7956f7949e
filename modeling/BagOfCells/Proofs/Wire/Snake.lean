import BagOfCells.Proofs.Builder.Unchanged
import BagOfCells.Proofs.Slice.Packed
import Mathlib.Data.List.Induction

/-!
# Snakes

A byte string that is too long for the room that is left goes on in a chain of cells. The chain is
made from its end, of links that are cut off the front, and is read from its front. So both are held
against the chain itself: ordinary cells of 127 bytes each, of which the last one holds what is left
and is not empty. Fewer than 65536 such cells can always be made, and they have no levels and are
not too deep to be referred to, so the current cell can be made too wherever it could before.

## Main definitions

* `Snake.Chain data cell`: the cells from `cell` on hold the bytes
* `Snake.Tail data refs`: some references hold what is left of some bytes
* `Snake.RoundTrip`: what is known of a snake that is stored and read back

## Main results

* `Snake.Chain.bytes_eq`, `Snake.exists_tail`: the bytes of a chain, and the chain that is made
* `Builder.storeSnake_eq_ok_iff`, `Slice.loadSnake_of_tail`: the store and the load
* `StoreOp.history_snake`: bytes and texts after any stores, there and back
-/

namespace BagOfCells

open Outcome

/-! ## Texts as bytes -/

theorem toList_loop_eq (data : ByteArray) (i : Nat) (front : Bytes) :
    ByteArray.toList.loop data i front = front.reverse ++ data.data.toList.drop i := by
  fun_induction ByteArray.toList.loop data i front with
  | case1 i front hlt ih =>
    have hbyte : data.data.toList.drop i = data.get! i :: data.data.toList.drop (i + 1) := by
      have hi : i < data.data.toList.length := hlt
      rw [List.drop_eq_getElem_cons hi]
      congr 1
      exact (getElem!_pos data.data i hlt).symm
    rw [ih, hbyte, List.reverse_cons, List.append_assoc, List.singleton_append]
  | case2 i front hge =>
    have hi : data.data.toList.length ≤ i := Nat.le_of_not_lt hge
    rw [List.drop_of_length_le hi, List.append_nil]

/-- The bytes of a text are read as the text. -/
theorem fromUTF8?_toUTF8 (text : String) :
    String.fromUTF8? ⟨text.toUTF8.toList.toArray⟩ = some text := by
  have hbytes : (⟨text.toUTF8.toList.toArray⟩ : ByteArray) = text.toByteArray := by
    rw [ByteArray.toList, toList_loop_eq]
    rfl
  rw [hbytes, String.fromUTF8?, dif_pos text.isValidUTF8]
  rfl

namespace Snake

/-- A chain of ordinary cells, linked by their only references, holds some bytes: 127 each, but for
the last one, which holds what is left. -/
inductive Chain : Bytes → Cell → Prop where
  | last {data : Bytes} {cell : Cell} (nonempty : data ≠ []) (short : data.length ≤ 127)
      (kind : cell.kind = .ordinary) (bits : cell.bits = Bits.ofBytes data)
      (refs : cell.refs = []) : Chain data cell
  | link {link rest : Bytes} {cell next : Cell} (full : link.length = 127)
      (kind : cell.kind = .ordinary) (bits : cell.bits = Bits.ofBytes link)
      (refs : cell.refs = [next]) (chained : Chain rest next) : Chain (link ++ rest) cell

/-- Some references hold what is left of some bytes: none if nothing is left, otherwise the one to
the chain of it. -/
inductive Tail : Bytes → List Cell → Prop where
  | none : Tail [] []
  | chain {data : Bytes} {next : Cell} (chained : Chain data next) : Tail data [next]

theorem Chain.ne_nil {data : Bytes} {cell : Cell} (h : Chain data cell) : data ≠ [] := by
  cases h with
  | last nonempty _ _ _ _ => exact nonempty
  | @link link rest _ _ full _ _ _ _ =>
    intro hnil
    rw [(List.append_eq_nil_iff.mp hnil).1] at full
    cases full

/-- A reference is taken up exactly if something is left. -/
theorem Tail.length_le_iff {data : Bytes} {refs : List Cell} (h : Tail data refs) {n m : Nat}
    (hle : n ≤ m) : n + refs.length ≤ m ↔ data = [] ∨ n < m := by
  cases h with
  | none => exact ⟨fun _ => .inl rfl, fun _ => hle⟩
  | chain chained => exact ⟨.inr, fun h => h.resolve_left chained.ne_nil⟩

theorem wholeBytes_ofBytes (data : Bytes) : wholeBytes (Bits.ofBytes data) = .ok data := by
  rw [wholeBytes, if_pos (by rw [Bits.length_ofBytes, Nat.mul_mod_right]), Bits.pack_ofBytes]

variable {data : Bytes} {cell : Cell}

/-- The bytes from an ordinary cell of whole bytes on. -/
theorem bytes_of_ordinary (kind : cell.kind = .ordinary) (bits : cell.bits = Bits.ofBytes data) :
    bytes cell = match cell.refs with
      | [] => .ok data
      | next :: _ => do return data ++ (← bytes next) := by
  obtain ⟨_, _, refs, _, _⟩ := cell
  obtain rfl : _ = CellKind.ordinary := kind
  obtain rfl : _ = Bits.ofBytes data := bits
  rw [bytes, wholeBytes_ofBytes]
  cases refs <;> rfl

/-- **The bytes of a chain** are read from its front. -/
theorem Chain.bytes_eq (h : Chain data cell) : bytes cell = .ok data := by
  induction h with
  | last _ _ kind bits refs => rw [bytes_of_ordinary kind bits, refs]
  | link _ kind bits refs _ ih =>
    rw [bytes_of_ordinary kind bits, refs]
    dsimp only
    rw [ih]
    rfl

/-- A chain of ordinary cells has no levels. -/
theorem Chain.mask_eq (h : Chain data cell) (made : cell.Made) : cell.mask = .empty := by
  induction h with
  | last _ _ kind _ refs =>
    have hsuits := made.sound.suits
    rw [kind, refs] at hsuits
    exact hsuits
  | link _ kind _ refs _ ih =>
    have hsuits := made.sound.suits
    rw [kind, refs] at hsuits
    have hnext := ih (made.refs (by rw [refs]; exact List.mem_singleton_self _))
    rw [Layout.Suits, Layout.ordinaryMask, List.foldl_cons, List.foldl_nil, hnext] at hsuits
    exact hsuits

/-- **The chain that is made** of some bytes holds them. -/
theorem chained_chain (hne : data ≠ []) {next : Option Cell} (h : chain (links data) = .ok next) :
    ∃ cell, next = some cell ∧ Chain data cell ∧ cell.Made := by
  fun_induction links data generalizing next with
  | case1 data hempty => exact absurd (List.isEmpty_iff.mp hempty) hne
  | case2 data _ ih =>
    rw [chain] at h
    simp only [bind_eq_ok_iff, pure_eq_ok_iff] at h
    obtain ⟨next, hnext, cell, hmake, rfl⟩ := h
    have hkind := Cell.kind_make hmake
    have hbits := Cell.bits_make hmake
    have hrefs := Cell.refs_make hmake
    refine ⟨cell, rfl, ?_⟩
    by_cases hrest : data.drop linkBytes = []
    -- the cell is the last of the chain, or there is a chain behind it
    · rw [hrest, links] at hnext
      cases hnext
      have hshort : data.length ≤ 127 := List.drop_eq_nil_iff.mp hrest
      have htake : data.take linkBytes = data := List.take_of_length_le hshort
      rw [htake] at hbits
      refine ⟨.last hne hshort hkind hbits hrefs, Cell.made_iff.mpr ⟨Cell.sound_of_make hmake, ?_⟩⟩
      rw [hrefs]
      exact List.forall_mem_nil _
    · obtain ⟨next, rfl, hchain, hmade⟩ := ih hrest hnext
      have hfull : (data.take linkBytes).length = 127 := by
        rw [List.drop_eq_nil_iff] at hrest
        exact List.length_take_of_le (Nat.le_of_not_le hrest)
      refine ⟨?_, Cell.made_iff.mpr ⟨Cell.sound_of_make hmake, ?_⟩⟩
      · have hlink := Chain.link hfull hkind hbits hrefs hchain
        rwa [List.take_append_drop] at hlink
      · rw [hrefs]
        simpa using hmade

/-- **What is left** of some bytes is held by fewer than 65536 cells, which have no levels and of
which none is as deep as a cell can be. -/
theorem exists_tail (hshort : (links data).length < 65536) :
    ∃ next, chain (links data) = .ok next ∧ Tail data next.toList ∧ ∀ ref ∈ next.toList,
      ref.Made ∧ ref.mask = .empty ∧ ∀ level, ref.depthAt level < Cell.maxDepth := by
  obtain ⟨next, hnext, hflat⟩ :=
    exists_chain (fun _ => PackedBuilder.length_le_of_mem_links) hshort
  refine ⟨next, hnext, ?_⟩
  rcases eq_or_ne data [] with rfl | hne
  · rw [links] at hnext
    cases hnext
    exact ⟨.none, List.forall_mem_nil _⟩
  · obtain ⟨cell, rfl, hchain, hmade⟩ := chained_chain hne hnext
    refine ⟨.chain hchain, fun ref href => ?_⟩
    obtain rfl := List.mem_singleton.mp href
    refine ⟨hmade, hchain.mask_eq hmade, fun level => ?_⟩
    exact (hflat ref rfl level).trans_le (Nat.le_of_lt_succ hshort)

end Snake

/-! ## What a snake puts down -/

/-- References without levels add none. -/
theorem Layout.ordinaryMask_append {refs later : List Cell}
    (h : ∀ ref ∈ later, ref.mask = .empty) :
    ordinaryMask (refs ++ later) = ordinaryMask refs := by
  induction later using List.reverseRecOn with
  | nil => rw [List.append_nil]
  | append_singleton later ref ih =>
    have hrest := ih fun r hr => h r (List.mem_append_left _ hr)
    have href := h ref (List.mem_append_right _ (List.mem_singleton_self ref))
    rw [ordinaryMask] at hrest
    rw [ordinaryMask, ← List.append_assoc, List.foldl_append, hrest, List.foldl_cons,
      List.foldl_nil, href, LevelMask.union]
    exact congrArg LevelMask.mk BitVec.or_zero

/-- **More references**, without levels and not too deep, and any bits, keep an ordinary cell from
being made only if there is no room for them. -/
theorem Cell.exists_make_append {bits bits' : Bits} {refs later : List Cell} {cell : Cell}
    (hmake : make .ordinary bits refs = .ok cell) (hbits : bits'.length ≤ maxBits)
    (hrefs : (refs ++ later).length ≤ maxRefs)
    (hlater : ∀ ref ∈ later, ref.mask = .empty ∧ ∀ level, ref.depthAt level < maxDepth) :
    ∃ other, make .ordinary bits' (refs ++ later) = .ok other := by
  rcases make_ordinary_or_overdeep hbits hrefs with ⟨other, hother, -⟩ | ⟨-, hover⟩
  · exact ⟨other, hother⟩
  · exfalso
    rw [Layout.ordinaryMask_append fun ref href => (hlater ref href).1] at hover
    obtain ⟨level, hlevel, ref, href, hdeep⟩ := hover
    rcases List.mem_append.mp href with href | href
    · have hshallow := (sound_of_make hmake).shallow
      have hsuits := (sound_of_make hmake).suits
      rw [kind_make hmake, refs_make hmake] at hshallow hsuits
      change cell.mask = Layout.ordinaryMask refs at hsuits
      rw [hsuits] at hshallow
      exact hshallow ⟨level, hlevel, ref, href, hdeep⟩
    · exact absurd ((hlater ref href).2 _) hdeep.not_gt

namespace Builder

variable {b : Builder} {data : Bytes}

/-- **What a snake puts down**, given the chain of what does not fit. -/
theorem storeSnake_eq_ok_iff (hb : b.InLimits) {next : Option Cell}
    (hnext : Snake.chain (Snake.links (data.drop b.availableBytes)) = .ok next) {c : Builder} :
    storeSnake data b = .ok () c ↔ b.refs.length + next.toList.length ≤ Cell.maxRefs ∧
      c = b.behind (Bits.ofBytes (data.take b.availableBytes)) next.toList := by
  have hfit : b.canFit (Bits.ofBytes (data.take b.availableBytes)).length next.toList.length =
      true ↔ b.refs.length + next.toList.length ≤ Cell.maxRefs := by
    have hrefs := hb.2
    rw [canFit_iff, Bits.length_ofBytes, List.length_take, availableBytes, availableBits]
    omega
  rw [encodes_storeSnake data b c hb, ← hfit]
  simp only [hnext, Except.toOption, bind, Option.bind, pure, Option.some.injEq, Prod.mk.injEq]
  constructor
  · rintro ⟨_, _, ⟨rfl, rfl⟩, hroom, rfl⟩
    exact ⟨hroom, rfl⟩
  · rintro ⟨hroom, rfl⟩
    exact ⟨_, _, ⟨rfl, rfl⟩, hroom, rfl⟩

/-- What a builder holds behind whole bytes that fit. -/
theorem InLimits.behind_take (hb : b.InLimits) {refs : List Cell}
    (hrefs : b.refs.length + refs.length ≤ Cell.maxRefs) :
    (b.behind (Bits.ofBytes (data.take b.availableBytes)) refs).InLimits := by
  have hbits := hb.1
  rw [InLimits, behind, List.length_append, List.length_append, Bits.length_ofBytes,
    List.length_take, availableBytes, availableBits]
  omega

end Builder

/-! ## What is read back -/

namespace Slice

variable {cell next : Cell} {head tail : Bytes}

/-- The whole bytes of a slice, and those of the chain that its only reference begins. -/
theorem loadSnake_eq (refs : List Cell) :
    loadSnake ⟨cell, Bits.ofBytes head, refs⟩ = ((do
      if refs.isEmpty then return head
      else
        let next ← loadRef
        return head ++ (← ofExcept (Snake.bytes next))) : Load Bytes) ⟨cell, [], refs⟩ := by
  have hhead : ofExcept (Snake.wholeBytes (Bits.ofBytes head)) =
      (pure head : Load Bytes) := by
    rw [Snake.wholeBytes_ofBytes]
    rfl
  have hrest : loadRemainingBits ⟨cell, Bits.ofBytes head, refs⟩ =
      .ok (Bits.ofBytes head) ⟨cell, [], refs⟩ := by
    have hbits := loadBits_eq (Bits.ofBytes head).length ⟨cell, Bits.ofBytes head, refs⟩
    rwa [if_pos le_rfl, List.take_length, List.drop_length] at hbits
  change ((ofExcept (Snake.wholeBytes (Bits.ofBytes head)) >>= fun head =>
    loadRemainingBits >>= fun _ => if refs.isEmpty then pure head else _ : Load Bytes)
      ⟨cell, Bits.ofBytes head, refs⟩) = _
  rw [hhead, pure_bind, run_bind_of_ok hrest]

theorem loadSnake_of_tail {refs : List Cell} (h : Snake.Tail tail refs) :
    loadSnake ⟨cell, Bits.ofBytes head, refs⟩ = .ok (head ++ tail) ⟨cell, [], []⟩ := by
  rw [loadSnake_eq]
  cases h with
  | none =>
    rw [List.append_nil]
    rfl
  | @chain _ next chained =>
    change (do return head ++ (← ofExcept (Snake.bytes next)) : Load Bytes) ⟨cell, [], []⟩ = _
    rw [chained.bytes_eq]
    rfl

end Slice

namespace PackedSlice

variable {α : Type} {cell : Cell} {m n : Nat}

theorem skipRefs_of_le {s : PackedSlice} (hs : s.WellFormed) (hn : n ≤ s.unpack.refs.length) :
    skipRefs n s = .ok () (s.pass n) := by
  rw [skipRefs, run_bind_of_ok (remainingRefs_eq hs), if_neg (Nat.not_lt.mpr hn)]
  rfl

/-- A load behind the first bits and references of a cell. -/
theorem run_behind (made : cell.Made) (hm : m ≤ cell.bits.length) (hn : n ≤ cell.refs.length)
    (load : PackedLoad α) :
    (do skipBits m; skipRefs n; load : PackedLoad α) (.ofCell cell) = load ⟨cell, m, n⟩ := by
  have hs : WellFormed (.ofCell cell) := wellFormed_ofCell made
  have hskip : skipBits m (.ofCell cell) = .ok () ⟨cell, m, 0⟩ := by
    have hle : m ≤ (ofCell cell).unpack.bits.length := hm
    rw [takes_skipBits m _ hs, if_pos hle, skip]
    simp only [ofCell, Nat.zero_add]
  have hpass : skipRefs n ⟨cell, m, 0⟩ = .ok () ⟨cell, m, n⟩ := by
    rw [skipRefs_of_le ⟨made, hm, Nat.zero_le _⟩ hn, pass]
    simp only [Nat.zero_add]
  rw [run_bind_of_ok hskip, run_bind_of_ok hpass]

/-- A snake that takes up what is left of a cell. -/
theorem loadSnake_of_ok (made : cell.Made) (hm : m ≤ cell.bits.length) (hn : n ≤ cell.refs.length)
    {data : Bytes} (h : Slice.loadSnake ⟨cell, cell.bits.drop m, cell.refs.drop n⟩ =
      .ok data ⟨cell, [], []⟩) :
    loadSnake ⟨cell, m, n⟩ = .ok data ⟨cell, cell.bits.length, cell.refs.length⟩ := by
  have hs : WellFormed ⟨cell, m, n⟩ := ⟨made, hm, hn⟩
  have hfollows : Follows True loadSnake Slice.loadSnake := follows_loadSnake
  obtain ⟨t, hload, hahead, hrest⟩ := hfollows.of_ok hs h
  rw [hload, hahead.wellFormed.eq_of_unpack hrest]

/-- The text of a snake whose bytes are those of the text. -/
theorem loadSnakeString_of_ok {s t : PackedSlice} {text : String}
    (h : loadSnake s = .ok text.toUTF8.toList t) : loadSnakeString s = .ok text t := by
  rw [loadSnakeString, run_bind_of_ok h, fromUTF8?_toUTF8]
  rfl

end PackedSlice

/-! ## There and back -/

/-- What a snake of some bytes is, behind what a builder holds: where it is stored, what is then in
the current cell and what in the chain, that a cell is made of it wherever one was made before, and
what a load gives behind the former contents of that cell, of which it leaves nothing. -/
structure Snake.RoundTrip {α : Type} (b : PackedBuilder) (data : Bytes) (store : PackedStore)
    (load : PackedLoad α) (value : α) : Prop where
  ok_iff : (∃ c, store b = .ok () c) ↔
    data.length ≤ b.availableBits / 8 ∨ b.refs.length < Cell.maxRefs
  head : ∀ c, store b = .ok () c →
    c.bits = b.bits ++ Bits.ofBytes (data.take (min data.length (b.availableBits / 8)))
  tail : ∀ c, store b = .ok () c →
    ∃ refs, c.refs = b.refs ++ refs ∧ Snake.Tail (data.drop (b.availableBits / 8)) refs
  built : ∀ c, store b = .ok () c → ∀ bare, b.endCell = .ok bare → ∃ cell, c.endCell = .ok cell
  loads : ∀ c, store b = .ok () c → ∀ cell, c.endCell = .ok cell →
    (do PackedSlice.skipBits b.length; PackedSlice.skipRefs b.refs.length; load : PackedLoad α)
      (.ofCell cell) = .ok value ⟨cell, cell.bits.length, cell.refs.length⟩

namespace Snake

variable {b : Builder} {data : Bytes}

open PackedBuilder PackedSlice

theorem endCell_behind {bits : Bits} {refs : List Cell} (hc : (b.behind bits refs).InLimits) :
    (b.behind bits refs).pack.endCell = Cell.make .ordinary (b.bits ++ bits) (b.refs ++ refs) :=
  endExoticCell_pack hc .ordinary

/-- Bytes put behind what a builder holds are read behind it. -/
theorem loads_behind {α : Type} {load : PackedLoad α} {value : α} {head tail : Bytes}
    {refs : List Cell} (hc : (b.behind (Bits.ofBytes head) refs).InLimits)
    (made : ∀ ref ∈ b.refs ++ refs, ref.Made) (htail : Tail tail refs)
    (hload : ∀ s t, loadSnake s = .ok (head ++ tail) t → load s = .ok value t) {cell : Cell}
    (hcell : (b.behind (Bits.ofBytes head) refs).pack.endCell = .ok cell) :
    (do skipBits b.pack.length; skipRefs b.pack.refs.length; load : PackedLoad α) (.ofCell cell) =
      .ok value ⟨cell, cell.bits.length, cell.refs.length⟩ := by
  rw [endCell_behind hc] at hcell
  have hbits := Cell.bits_make hcell
  have hrefs := Cell.refs_make hcell
  have hmade : cell.Made := Cell.made_iff.mpr ⟨Cell.sound_of_make hcell, by rwa [hrefs]⟩
  have hm : b.bits.length ≤ cell.bits.length := by
    rw [hbits, List.length_append]
    exact Nat.le_add_right ..
  have hn : b.refs.length ≤ cell.refs.length := by
    rw [hrefs, List.length_append]
    exact Nat.le_add_right ..
  have hleft : Slice.loadSnake ⟨cell, cell.bits.drop b.bits.length,
      cell.refs.drop b.refs.length⟩ = .ok (head ++ tail) ⟨cell, [], []⟩ := by
    rw [hbits, hrefs, List.drop_left, List.drop_left]
    exact Slice.loadSnake_of_tail htail
  exact (run_behind hmade hm hn load).trans (hload _ _ (loadSnake_of_ok hmade hm hn hleft))

/-- **The snake of some bytes**, for any load that gives some value for these bytes. -/
theorem roundTrip (hb : b.InLimits) (made : ∀ ref ∈ b.refs, ref.Made)
    (hshort : (links (data.drop b.availableBytes)).length < 65536) {α : Type} {load : PackedLoad α}
    {value : α} (hload : ∀ s t, loadSnake s = .ok data t → load s = .ok value t) :
    RoundTrip b.pack data (storeSnake data) load value := by
  obtain ⟨next, hnext, htail, hcells⟩ := exists_tail hshort
  have hroom : b.pack.availableBits / 8 = b.availableBytes := rfl
  have hstore (c : PackedBuilder) : storeSnake data b.pack = .ok () c ↔
      b.refs.length + next.toList.length ≤ Cell.maxRefs ∧
        c = (b.behind (Bits.ofBytes (data.take b.availableBytes)) next.toList).pack := by
    rw [(performs_storeSnake data).eq_ok_iff hb]
    simp only [Builder.storeSnake_eq_ok_iff hb hnext, and_assoc, exists_and_left, exists_eq_left]
  have hlimits (h : b.refs.length + next.toList.length ≤ Cell.maxRefs) :
      (b.behind (Bits.ofBytes (data.take b.availableBytes)) next.toList).InLimits :=
    hb.behind_take h
  refine ⟨?_, ?_, ?_, ?_, ?_⟩
  · simp only [hstore, exists_and_left, exists_eq, and_true]
    rw [htail.length_le_iff hb.2, List.drop_eq_nil_iff, hroom]
    rfl
  all_goals
    intro c hc
    obtain ⟨hrefs, rfl⟩ := (hstore c).mp hc
  · rw [bits_pack, bits_pack, hroom, Nat.min_comm, ← List.take_eq_take_min]
    rfl
  · exact ⟨next.toList, rfl, htail⟩
  · intro bare hbare
    have hmake : Cell.make .ordinary b.bits b.refs = .ok bare :=
      (endExoticCell_pack hb .ordinary).symm.trans hbare
    rw [endCell_behind (hlimits hrefs)]
    exact Cell.exists_make_append hmake (hlimits hrefs).1 (hlimits hrefs).2
      fun ref href => (hcells ref href).2
  · intro cell hcell
    have hmade : ∀ ref ∈ b.refs ++ next.toList, ref.Made := fun ref href =>
      (List.mem_append.mp href).elim (made ref) fun h => (hcells ref h).1
    rw [← List.take_append_drop b.availableBytes data] at hload
    exact loads_behind (hlimits hrefs) hmade htail hload hcell

end Snake

/-- **Snakes come back.** After any stores, bytes whose rest takes fewer than 65536 cells are stored
exactly if they fit the whole bytes that are left or a reference is left. As many as fit are put in
the current cell and the others in one chain of ordinary cells; a load behind the former contents of
the cell that is made gives all of them back and leaves nothing. So do the bytes of a text, wherever
they are parted. -/
theorem StoreOp.history_snake (ops : List StoreOp)
    (made : ∀ ref ∈ (history ops).refs, ref.Made) :
    let b := history ops
    (∀ data : Bytes, (Snake.links (data.drop b.availableBytes)).length < 65536 →
      Snake.RoundTrip b data (PackedBuilder.storeSnake data) PackedSlice.loadSnake data) ∧
    ∀ text : String, (Snake.links (text.toUTF8.toList.drop b.availableBytes)).length < 65536 →
      Snake.RoundTrip b text.toUTF8.toList (PackedBuilder.storeSnakeString text false)
        PackedSlice.loadSnakeString text := by
  obtain ⟨b, hb, heq⟩ := exists_history ops
  rw [heq] at made ⊢
  exact ⟨fun data hshort => Snake.roundTrip hb made hshort fun _ _ h => h,
    fun text hshort => Snake.roundTrip hb made hshort
      fun _ _ h => PackedSlice.loadSnakeString_of_ok h⟩

/-- Behind a bit there is room for 127 bytes: a text of 130 bytes, in which the two bytes of a
character are parted, goes on in a chain and is read back behind the bit. -/
theorem StoreOp.history_snake_parted :
    (∀ ref ∈ (history [.call (.bit true)]).refs, ref.Made) ∧
    ∃ c next cell, PackedBuilder.storeSnakeString ("".pushn 'é' 65) false
        (history [.call (.bit true)]) = .ok () c ∧
      c.refs = [next] ∧ Snake.Chain [0xa9, 0xc3, 0xa9] next ∧ c.endCell = .ok cell ∧
      (do
        PackedSlice.skipBits 1
        PackedSlice.skipRefs 0
        PackedSlice.loadSnakeString : PackedLoad String) (.ofCell cell) =
        .ok ("".pushn 'é' 65) ⟨cell, cell.bits.length, cell.refs.length⟩ := by
  have made : ∀ ref ∈ (history [.call (.bit true)]).refs, ref.Made := nofun
  have hroom : (history [.call (.bit true)]).availableBits / 8 = 127 := rfl
  have hleft : ("".pushn 'é' 65).toUTF8.toList.drop 127 = [0xa9, 0xc3, 0xa9] := by
    decide +kernel
  have hlinks : Snake.links [0xa9, 0xc3, 0xa9] = [[0xa9, 0xc3, 0xa9]] := by
    simp [Snake.links, Snake.linkBytes, Cell.maxBits]
  have hsnake := (history_snake [.call (.bit true)] made).2 ("".pushn 'é' 65) (by
    rw [PackedBuilder.availableBytes, hroom, hleft, hlinks]
    decide)
  obtain ⟨c, hc⟩ := hsnake.ok_iff.mpr (.inr (by decide))
  obtain ⟨bare, hbare⟩ : ∃ bare, (history [.call (.bit true)]).endCell = .ok bare := ⟨_, rfl⟩
  obtain ⟨cell, hcell⟩ := hsnake.built c hc bare hbare
  obtain ⟨refs, hrefs, htail⟩ := hsnake.tail c hc
  rw [hroom, hleft] at htail
  cases htail with
  | @chain _ next chained =>
    exact ⟨made, c, next, cell, hc, hrefs, chained, hcell, hsnake.loads c hc cell hcell⟩

end BagOfCells
