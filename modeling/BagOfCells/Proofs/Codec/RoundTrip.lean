import BagOfCells.Codec.Shape
import BagOfCells.Proofs.Dictionary.ReadBack

/-!
# Typed values that read back

A codec gives a value back if it loads from wherever it has stored the value just that value. The
simple codecs do so, and optional parts, parts in references, parts that go where they fit and parts
behind constants do so when what they are put together from does. So every shape gives back every
value it can store, alone in a cell; and where nothing in it takes the rest of the cell, among other
things that are stored.

## Main definitions

* `Codec.Returns codec rest a`: a codec gives a value back
* `StateInit.Valid`, `JettonTransfer.Valid`, `Shape.Valid`: values as they are made
* `Shape.Sound`, `Shape.takesRest`: the widths of a shape, and whether it takes the rest of a cell

## Main results

* `Codec.returns_maybe`, `Codec.returns_inRef`, `Codec.returns_either`, `Codec.returns_tagged`:
  codecs put together
* `StateInit.returns_codec`, `JettonTransfer.returns_codec`: the records
* `Shape.codec_readsBack`: every shape
-/

namespace BagOfCells

open Builder (ReadsBack)

/-! ## Codecs -/

namespace Codec

variable {α : Type} {codec : Codec α} {rest : Bool} {a : α}

/-- A codec loads a value from wherever it has stored it; behind the value nothing may be stored if
the load takes the rest. -/
def Returns (codec : Codec α) (rest : Bool) (a : α) : Prop :=
  ReadsBack (codec.store a) codec.load rest a

theorem returns_bool (bit : Bool) : bool.Returns rest bit :=
  Builder.readsBack_bit bit

theorem returns_uint {width : Nat} (hw : width ≤ 64) (value : BitVec width) :
    (uint width).Returns rest value := by
  have hlt : value.toNat < 2 ^ 64 := value.isLt.trans_le (Nat.pow_le_pow_right (by decide) hw)
  have hvalue : BitVec.ofNat width (UInt64.ofNat value.toNat).toNat = value := by
    rw [UInt64.toNat_ofNat_of_lt' hlt, BitVec.ofNat_toNat, BitVec.setWidth_eq]
  have hread : ReadsBack (Builder.storeWord (UInt64.ofNat value.toNat) width) (uint width).load rest
      (BitVec.ofNat width (UInt64.ofNat value.toNat).toNat) :=
    (Builder.readsBack_word _ hw).map fun word => BitVec.ofNat width word.toNat
  rwa [hvalue] at hread

theorem returns_cell (c : Cell) : cell.Returns rest c :=
  Builder.readsBack_ref c

theorem returns_addressOrNone {address? : Option Address}
    (h : ∀ address ∈ address?, address.plain = address) :
    addressOrNone.Returns rest address? := by
  have hread : ReadsBack (Builder.storeAddress address?) Slice.loadAddress rest _ :=
    Builder.readsBack_address address?
  rwa [Option.map_congr (g := id) h, Option.map_id] at hread

theorem returns_address {a : Address} (h : a.plain = a) : address.Returns rest a := by
  refine (Builder.readsBack_address (some a)).mono fun _ _ hread => hread.bind_nothing ?_
  rw [Option.map_some, h]
  exact .pure a

theorem returns_coins (amount : Nat) : coins.Returns rest amount :=
  Builder.readsBack_coins amount

/-- A cell put inline comes back where nothing is stored behind it. -/
theorem returns_rest {c : Cell} (h : c.Made) : Codec.rest.Returns true c :=
  Builder.readsBack_cell h.sound

theorem returns_dictionary {width : Nat} {d : Dictionary} (h : d.Valid) :
    (dictionary width).Returns rest d := by
  unfold Returns dictionary
  dsimp only
  split
  · exact Builder.appends_throw _
  · next hwidth =>
    obtain rfl := not_not.mp hwidth
    exact Builder.readsBack_dictionary h

/-! ### Codecs put together -/

theorem returns_maybe {a? : Option α} (h : ∀ a ∈ a?, codec.Returns rest a) :
    codec.maybe.Returns rest a? := by
  cases a? with
  | none => exact (Builder.readsBack_bit false).mono fun _ _ hbit => hbit.bind_nothing (.pure none)
  | some a => exact (Builder.readsBack_bit true).bind ((h a rfl).map some)

/-- **The value of a cell of its own** is loaded from it. -/
theorem Returns.ofCell_toCell (h : codec.Returns rest a) {c : Cell} (hc : codec.toCell a = .ok c) :
    codec.ofCell c = .ok a :=
  ReadsBack.parse h hc

/-- A value in a cell of its own may take the rest of that cell. -/
theorem returns_inRef {inner : Bool} (h : codec.Returns inner a) : codec.inRef.Returns rest a := by
  refine (Builder.checks_ofExcept _).bind fun c hc => ?_
  refine (Builder.readsBack_ref c).mono fun _ _ hread => hread.bind_nothing ?_
  exact Slice.reads_ofExcept (h.ofCell_toCell hc)

/-- Inline a value is stored as it is in a cell of its own, whose contents are put there. -/
theorem returns_either (h : codec.Returns rest a) : codec.either.Returns rest a := by
  refine (Builder.checks_ofExcept _).bind fun c hc => ?_
  exact Builder.readsBack_either (fun _ => (Builder.Appends.build h hc).1) (h.ofCell_toCell hc)

theorem returns_tagged {constant : UInt64} {width : Nat} (hw : width ≤ 64)
    (h : codec.Returns rest a) : (codec.tagged constant width).Returns rest a :=
  (Builder.readsBack_constant constant hw).bind h

end Codec

/-! ## Records -/

theorem TickTock.returns_codec {rest : Bool} (value : TickTock) :
    TickTock.codec.Returns rest value :=
  (Builder.readsBack_bit value.tick).bind ((Builder.readsBack_bit value.tock).map _)

theorem Library.returns_codec {rest : Bool} (value : Library) :
    Library.codec.Returns rest value :=
  (Builder.readsBack_bit value.isPublic).bind ((Builder.readsBack_ref value.root).map _)

namespace StateInit

variable {rest : Bool}

/-- The cells of a state are made, and so is the dictionary of its libraries. -/
structure Valid (state : StateInit) : Prop where
  code : ∀ cell ∈ state.code, cell.Made
  data : ∀ cell ∈ state.data, cell.Made
  library : state.library.Valid

theorem readsBack_splitDepth (depth? : Option UInt8) :
    ReadsBack (storeSplitDepth depth?) loadSplitDepth rest depth? := by
  cases depth? with
  | none => exact (Builder.readsBack_bit false).mono fun _ _ hbit => hbit.bind_nothing (.pure none)
  | some depth =>
    unfold storeSplitDepth loadSplitDepth
    refine Builder.appends_refuse fun _ => ?_
    have hword : ReadsBack (Builder.storeWord depth.toUInt64 splitDepthWidth)
        (Slice.loadWord splitDepthWidth) rest depth.toUInt64 :=
      Builder.readsBack_word _ (by decide)
    have hdepth : depth.toUInt64.toUInt8 = depth := UInt8.toUInt8_toUInt64 depth
    have hread : ReadsBack _ (Slice.loadWord splitDepthWidth >>= fun word =>
        pure (some word.toUInt8)) rest (some depth.toUInt64.toUInt8) :=
      hword.map fun word => some word.toUInt8
    rw [hdepth] at hread
    exact (Builder.readsBack_bit true).bind hread

/-- **A state** comes back, whatever is stored behind it. -/
theorem returns_codec {state : StateInit} (h : state.Valid) :
    StateInit.codec.Returns rest state := by
  have hspecial : TickTock.codec.maybe.Returns false state.special :=
    Codec.returns_maybe fun value _ => value.returns_codec
  have hlibrary : (Codec.dictionary 256).Returns rest state.library :=
    Codec.returns_dictionary h.library
  refine (readsBack_splitDepth state.splitDepth).bind ?_
  refine hspecial.bind ?_
  refine (Builder.readsBack_maybeRef state.code).bind ?_
  refine (Builder.readsBack_maybeRef state.data).bind ?_
  exact hlibrary.map _

end StateInit

namespace JettonTransfer

/-- The cells of a transfer are made, and its addresses have no flags of their own. -/
structure Valid (transfer : JettonTransfer) : Prop where
  destination : transfer.destination.plain = transfer.destination
  response : ∀ address ∈ transfer.responseDestination, address.plain = address
  custom : ∀ cell ∈ transfer.customPayload, cell.Made
  forward : transfer.forwardPayload.Made

/-- **A transfer** comes back where nothing is stored behind it: its payload may be inline. -/
theorem returns_codec {transfer : JettonTransfer} (h : transfer.Valid) :
    JettonTransfer.codec.Returns true transfer := by
  refine Codec.returns_tagged (by decide) ?_
  have hquery : ReadsBack (Builder.storeLowBits transfer.queryId 64) (Slice.loadWord 64) false
      transfer.queryId :=
    Builder.readsBack_lowBits transfer.queryId
  have hdestination : Codec.address.Returns false transfer.destination :=
    Codec.returns_address h.destination
  have hresponse : Codec.addressOrNone.Returns false transfer.responseDestination :=
    Codec.returns_addressOrNone h.response
  have hpayload : payloadCodec.Returns true transfer.forwardPayload :=
    Codec.returns_either (Codec.returns_rest h.forward)
  refine hquery.bind ?_
  refine (Codec.returns_coins transfer.amount : ReadsBack ..).bind ?_
  refine hdestination.bind ?_
  refine hresponse.bind ?_
  refine (Builder.readsBack_maybeRef transfer.customPayload).bind ?_
  refine (Codec.returns_coins transfer.forwardAmount : ReadsBack ..).bind ?_
  exact hpayload.map _

end JettonTransfer

/-! ## Shapes -/

namespace Shape

/-- The numbers of a shape fit machine words, and the widths of its keys do. -/
def Sound : Shape → Prop
  | uint width => width ≤ 64
  | dictionary width => width < 2 ^ 64
  | maybe inner | inRef inner | either inner => inner.Sound
  | bool | cell | address | addressOrNone | coins | rest | tickTock | library | stateInit
  | jettonTransfer => True

/-- Whether a value of the shape may take the rest of the cell it is in: what is left of a cell is
reached without a reference. -/
def takesRest : Shape → Bool
  | rest | jettonTransfer => true
  | maybe inner | either inner => inner.takesRest
  | bool | uint _ | cell | address | addressOrNone | coins | tickTock | library | dictionary _
  | stateInit | inRef _ => false

/-- The cells and dictionaries of a value are as they are made, and its addresses have no flags of
their own. -/
def Valid : (shape : Shape) → shape.Value → Prop
  | cell, (c : Cell) | rest, (c : Cell) => c.Made
  | address, (a : Address) => a.plain = a
  | addressOrNone, (a? : Option Address) => ∀ a ∈ a?, a.plain = a
  | library, (l : Library) => l.root.Made
  | dictionary _, (d : Dictionary) => d.Valid
  | stateInit, (s : StateInit) => s.Valid
  | jettonTransfer, (t : JettonTransfer) => t.Valid
  | maybe inner, (v? : Option inner.Value) => ∀ v ∈ v?, inner.Valid v
  | inRef inner, v | either inner, v => inner.Valid v
  | bool, _ | uint _, _ | coins, _ | tickTock, _ => True

/-- The codec of a shape gives its values back. The induction is on the shape: a value in a
reference is loaded from a cell of its own, so what takes the rest of that cell is no matter
outside. -/
theorem returns_codec : ∀ {shape : Shape}, shape.Sound → ∀ {value : shape.Value},
    shape.Valid value → shape.codec.Returns shape.takesRest value
  | bool, _, value, _ => Codec.returns_bool value
  | uint _, hs, value, _ => Codec.returns_uint hs value
  | cell, _, value, _ => Codec.returns_cell value
  | address, _, _, hv => Codec.returns_address hv
  | addressOrNone, _, _, hv => Codec.returns_addressOrNone hv
  | coins, _, value, _ => Codec.returns_coins value
  | rest, _, _, hv => Codec.returns_rest hv
  | tickTock, _, value, _ => TickTock.returns_codec value
  | library, _, value, _ => Library.returns_codec value
  | dictionary _, _, _, hv => Codec.returns_dictionary hv
  | stateInit, _, _, hv => StateInit.returns_codec hv
  | jettonTransfer, _, _, hv => JettonTransfer.returns_codec hv
  | maybe inner, hs, _, hv =>
    have hinner : inner.Sound := hs
    Codec.returns_maybe fun v hmem => returns_codec hinner (hv v hmem)
  | inRef inner, hs, _, hv =>
    have hinner : inner.Sound := hs
    Codec.returns_inRef (returns_codec hinner hv)
  | either inner, hs, _, hv =>
    have hinner : inner.Sound := hs
    Codec.returns_either (returns_codec hinner hv)

/-- **Every shape gives its values back.** Whatever value of a shape is stored in a cell of its own
is loaded from that cell. And if nothing in the shape takes the rest of the cell it is in, let the
value be stored behind anything, and any cell be made of the builder after more has been stored:
then the value is loaded from the place where it was stored, and the load stops just behind it. -/
theorem codec_readsBack {shape : Shape} (sound : shape.Sound) {value : shape.Value}
    (valid : shape.Valid value) :
    (∀ cell, shape.codec.toCell value = .ok cell → shape.codec.ofCell cell = .ok value) ∧
    (shape.takesRest = false → ∀ (b b' b'' : Builder) (kind : CellKind) (cell : Cell),
      shape.codec.store value b = .ok () b' → b'.bits <+: b''.bits → b'.refs <+: b''.refs →
      b''.endExoticCell kind = .ok cell →
        shape.codec.load ⟨cell, cell.bits.drop b.bits.length, cell.refs.drop b.refs.length⟩ =
          .ok value ⟨cell, cell.bits.drop b'.bits.length, cell.refs.drop b'.refs.length⟩) := by
  have hreturns := returns_codec sound valid
  refine ⟨fun cell hcell => hreturns.ofCell_toCell hcell, ?_⟩
  intro hrest b b' b'' kind cell hstore hbits hrefs hcell
  have hnothing : shape.takesRest = true → b'' = b' := fun h => by
    rw [hrest] at h
    cases h
  exact ReadsBack.load_eq hreturns hstore hbits hrefs hnothing hcell

/-- A transfer, perhaps, in a cell of its own, which is inline or in another one. -/
def parcel : Shape := .either (.maybe (.inRef .jettonTransfer))

/-- A transfer to an account of the masterchain. -/
def sent : JettonTransfer where
  queryId := 7
  amount := 1000
  destination := .ofParts (-1) (.ofBytes [0xab])
  customPayload := some .empty
  forwardAmount := 1

theorem valid_sent : sent.Valid :=
  ⟨rfl, nofun, fun | _, rfl => Cell.made_empty, Cell.made_empty⟩

-- the bits of the cells are gone through one by one
set_option maxRecDepth 4000 in
/-- A transfer reads back behind a bit that was stored before, and from a cell of its own. -/
theorem codec_readsBack_parcel :
    (∃ cell, parcel.codec.toCell (some sent) = .ok cell ∧
      parcel.codec.ofCell cell = .ok (some sent)) ∧
    ∃ b cell, parcel.codec.store (some sent) ⟨[true], []⟩ = .ok () b ∧ b.endCell = .ok cell ∧
      parcel.codec.load ⟨cell, cell.bits.drop 1, cell.refs⟩ =
        .ok (some sent) ⟨cell, cell.bits.drop b.bits.length, cell.refs.drop b.refs.length⟩ := by
  have hsound : parcel.Sound := trivial
  have hvalid : parcel.Valid (some sent) := fun | _, rfl => valid_sent
  obtain ⟨own, hown⟩ : ∃ cell, parcel.codec.toCell (some sent) = .ok cell := ⟨_, rfl⟩
  obtain ⟨b, hb⟩ : ∃ b, parcel.codec.store (some sent) ⟨[true], []⟩ = .ok () b := ⟨_, rfl⟩
  obtain ⟨cell, hcell⟩ : ∃ cell, (Builder.run (parcel.codec.store (some sent)) ⟨[true], []⟩ >>=
    Builder.endCell) = .ok cell := ⟨_, rfl⟩
  rw [Builder.run_eq_ok_iff.mpr hb] at hcell
  obtain ⟨hwhole, hplaced⟩ := codec_readsBack hsound hvalid
  exact ⟨⟨own, hown, hwhole own hown⟩, b, cell, hb, hcell,
    hplaced rfl _ b b .ordinary cell hb List.prefix_rfl List.prefix_rfl hcell⟩

end Shape

end BagOfCells
