import BagOfCells.Proofs.Cell.Identity
import BagOfCells.Proofs.Codec.RoundTrip
import BagOfCells.Proofs.Dictionary.History

/-!
# Contracts and their addresses

The address of a contract is its workchain and the hash of the cell of its initial state. The cell
is read as one state, and cells with one hash are one cell as long as the hash has no collisions. So
the address tells the whole state: split depth, flags, code, data and every library. The other way
round, states that are compared as equal, cells by their hashes, have one cell, so contracts that
start from them in one workchain have one address. The values of libraries stand in the cell with
their contents and not in references, so here their own hashes matter too. As libraries are kept in
the order of their hashes, the order in which they were added leaves no trace.

## Main definitions

* `Builder.Refers store cells`: made references that are stored, and some cells among them
* `StateInit.values`: the values of the libraries of two states

## Main results

* `StateInit.made_toCell`: the cell of a state is made, and refers to code and data
* `StateInit.eq_of_beq`: states compared as equal are equal
* `StateInit.foldlM_addLibrary_perm`: the order of libraries
* `StateInit.address_identifies`: an address and the state it stands for
-/

namespace BagOfCells

open Outcome
open Builder (Appends)

/-! ## Cells of states -/

namespace Builder

variable {first : Store} {next : Unit → Store} {cells cells' : List Cell}

/-- A store appends made references, some cells among them. -/
def Refers (store : Store) (cells : List Cell) : Prop :=
  Appends store fun _ refs => (∀ ref ∈ refs, ref.Made) ∧ cells ⊆ refs

theorem Refers.bind (h : Refers first cells) (hn : Refers (next ()) cells') :
    Refers (first >>= next) (cells ++ cells') := by
  refine Appends.bind h hn ?_
  rintro _ refs _ refs' ⟨hmade, hsub⟩ ⟨hmade', hsub'⟩
  refine ⟨fun ref hr => ?_, List.append_subset.mpr ⟨?_, ?_⟩⟩
  · exact (List.mem_append.mp hr).elim (hmade ref) (hmade' ref)
  · exact List.subset_append_of_subset_left _ hsub
  · exact List.subset_append_of_subset_right _ hsub'

theorem refers_append (bits : Bits) {refs : List Cell} (h : ∀ ref ∈ refs, ref.Made) :
    Refers (append bits refs) refs :=
  appends_append ⟨h, List.Subset.refl _⟩

theorem Writes.refers {store : Store} {bits : Bits} (h : Writes store bits) : Refers store [] := by
  refine h.mono ?_
  rintro _ _ ⟨-, rfl⟩
  exact ⟨nofun, List.Subset.refl _⟩

theorem refers_maybeRef {cell? : Option Cell} (h : ∀ cell ∈ cell?, cell.Made) :
    Refers (storeMaybeRef cell?) cell?.toList := by
  cases cell? with
  | none => exact refers_append [false] nofun
  | some cell => exact refers_append [true] (List.forall_mem_singleton.mpr (h cell rfl))

end Builder

namespace StateInit

variable {state : StateInit} {cell : Cell}

theorem refers_codec (h : state.Valid) :
    Builder.Refers (codec.store state) (state.code.toList ++ state.data.toList) := by
  have hdepth : Builder.Refers (storeSplitDepth state.splitDepth) [] := by
    cases state.splitDepth with
    | none => exact (Builder.writes_append [false]).refers
    | some depth =>
      unfold storeSplitDepth
      refine Builder.appends_refuse fun _ => ?_
      have hword : Builder.Refers (Builder.storeWord depth.toUInt64 splitDepthWidth) [] := by
        refine (Builder.appends_word _ (by decide)).mono ?_
        rintro _ _ ⟨-, rfl, -⟩
        exact ⟨nofun, List.Subset.refl _⟩
      exact (Builder.writes_append [true]).refers.bind hword
  have hspecial : Builder.Refers (TickTock.codec.maybe.store state.special) [] := by
    cases state.special with
    | none => exact (Builder.writes_append [false]).refers
    | some value =>
      exact (Builder.writes_append [true]).refers.bind
        ((Builder.writes_append [value.tick]).refers.bind
          (Builder.writes_append [value.tock]).refers)
  have hlibrary : Builder.Refers ((Codec.dictionary 256).store state.library) [] := by
    unfold Codec.dictionary
    dsimp only
    split
    · exact Builder.appends_throw _
    · refine (Builder.checks_ofExcept _).bind fun root hroot => ?_
      obtain ⟨root, hc, rfl⟩ := map_eq_ok_iff.mp hroot
      refine (Builder.refers_maybeRef (h.library.made_toCell? hc)).mono ?_
      exact fun _ _ href => ⟨href.1, List.nil_subset _⟩
  have hall : Builder.Refers (codec.store state)
      ([] ++ ([] ++ (state.code.toList ++ (state.data.toList ++ [])))) := by
    refine hdepth.bind (hspecial.bind ?_)
    exact (Builder.refers_maybeRef h.code).bind ((Builder.refers_maybeRef h.data).bind hlibrary)
  rwa [List.nil_append, List.nil_append, List.append_nil] at hall

/-- The cell of a state is made, and it refers to the code and the data. -/
theorem made_toCell (h : state.Valid) (hc : codec.toCell state = .ok cell) :
    cell.Made ∧ state.code.toList ++ state.data.toList ⊆ cell.refs := by
  obtain ⟨⟨hmade, hsub⟩, -, hs⟩ := (refers_codec h).build hc
  exact ⟨Cell.made_iff.mpr ⟨hs, hmade⟩, hsub⟩

end StateInit

/-! ## States compared by their hashes -/

instance Cell.instReflBEq : ReflBEq Cell :=
  ⟨fun {cell} => beq_self_eq_true cell.hash⟩

theorem Dictionary.beq_iff {d d' : Dictionary} :
    (d == d') = true ↔ d.width = d'.width ∧ (d.entries == d'.entries) = true := by
  cases d
  cases d'
  exact Bool.and_eq_true_iff.trans (and_congr_left' beq_iff_eq)

/-- Entries whose values are told by their hashes. -/
theorem Dictionary.entries_eq_of_beq {entries entries' : List (Nat × Cell)}
    (h : (entries == entries') = true)
    (told : ∀ e ∈ entries, ∀ e' ∈ entries', (e.2 == e'.2) = true → e.2 = e'.2) :
    entries = entries' := by
  induction entries generalizing entries' with
  | nil =>
    cases entries' with
    | nil => rfl
    | cons e' rest' => cases h
  | cons e rest ih =>
    cases entries' with
    | nil => cases h
    | cons e' rest' =>
      rw [List.cons_beq_cons, Bool.and_eq_true] at h
      obtain ⟨hkey, hvalue⟩ := Bool.and_eq_true_iff.mp h.1
      have hfirst : e = e' := Prod.ext (beq_iff_eq.mp hkey)
        (told e List.mem_cons_self e' List.mem_cons_self hvalue)
      have hrest : rest = rest' := ih h.2 fun a ha b hb =>
        told a (List.mem_cons_of_mem _ ha) b (List.mem_cons_of_mem _ hb)
      rw [hfirst, hrest]

/-- A cell that is told by its hash, if it is there. -/
theorem Cell.option_eq_of_beq {a? b? : Option Cell} (h : (a? == b?) = true)
    (told : ∀ a ∈ a?, ∀ b ∈ b?, (a == b) = true → a = b) : a? = b? := by
  cases a? with
  | none =>
    cases b? with
    | none => rfl
    | some b => cases h
  | some a =>
    cases b? with
    | none => cases h
    | some b => exact congrArg some (told a rfl b rfl h)

namespace StateInit

variable {state state' : StateInit} {cell cell' : Cell}

theorem beq_iff : (state == state') = true ↔
    state.splitDepth = state'.splitDepth ∧ state.special = state'.special ∧
      (state.code == state'.code) = true ∧ (state.data == state'.data) = true ∧
        (state.library == state'.library) = true := by
  cases state
  cases state'
  refine Bool.and_eq_true_iff.trans (and_congr beq_iff_eq ?_)
  refine Bool.and_eq_true_iff.trans (and_congr beq_iff_eq ?_)
  exact Bool.and_eq_true_iff.trans (and_congr_right fun _ => Bool.and_eq_true_iff)

theorem beq_self (state : StateInit) : (state == state) = true :=
  beq_iff.mpr ⟨rfl, rfl, BEq.rfl, BEq.rfl, Dictionary.beq_iff.mpr ⟨rfl, BEq.rfl⟩⟩

/-- The values of the libraries of two states: their contents are in the cells of the states, though
they are no references there. -/
def values (state state' : StateInit) : List Cell :=
  (state.library.entries ++ state'.library.entries).map Prod.snd

/-- **States that are compared as equal** are equal, as long as no two messages hashed for their
cells and for the values of their libraries have one digest. -/
theorem eq_of_beq (hv : state.Valid) (hv' : state'.Valid) (hc : codec.toCell state = .ok cell)
    (hc' : codec.toCell state' = .ok cell')
    (free : Cell.CollisionFree (cell :: cell' :: values state state'))
    (h : (state == state') = true) : state = state' := by
  obtain ⟨hmade, hrefs⟩ := made_toCell hv hc
  obtain ⟨hmade', hrefs'⟩ := made_toCell hv' hc'
  have made : ∀ root ∈ cell :: cell' :: values state state', root.Made := by
    refine List.forall_mem_cons.mpr ⟨hmade, List.forall_mem_cons.mpr ⟨hmade', fun root hr => ?_⟩⟩
    obtain ⟨entry, he, rfl⟩ := List.mem_map.mp hr
    exact (List.mem_append.mp he).elim (hv.library.made entry) (hv'.library.made entry)
  have told {a b : Cell} (ha : a ∈ Cell.reachable (cell :: cell' :: values state state'))
      (hb : b ∈ Cell.reachable (cell :: cell' :: values state state'))
      (h : (a == b) = true) : a = b :=
    Cell.eq_of_hash_eq made free ha hb (beq_iff_eq.mp h)
  have href {ref : Cell} (h : ref ∈ cell.refs) :
      ref ∈ Cell.reachable (cell :: cell' :: values state state') :=
    Cell.reachable_ref (Cell.reachable_self List.mem_cons_self) h
  have href' {ref : Cell} (h : ref ∈ cell'.refs) :
      ref ∈ Cell.reachable (cell :: cell' :: values state state') :=
    Cell.reachable_ref (Cell.reachable_self (List.mem_cons_of_mem _ List.mem_cons_self)) h
  have hvalue {entry : Nat × Cell}
      (h : entry ∈ state.library.entries ++ state'.library.entries) :
      entry.2 ∈ Cell.reachable (cell :: cell' :: values state state') :=
    Cell.reachable_self (List.mem_cons_of_mem _ (List.mem_cons_of_mem _ (List.mem_map_of_mem h)))
  obtain ⟨hdepth, hspecial, hcode, hdata, hlibrary⟩ := beq_iff.mp h
  obtain ⟨hwidth, hentries⟩ := Dictionary.beq_iff.mp hlibrary
  have hcode : state.code = state'.code := Cell.option_eq_of_beq hcode fun a ha b hb =>
    told (href (hrefs (List.mem_append_left _ (Option.mem_toList.mpr ha))))
      (href' (hrefs' (List.mem_append_left _ (Option.mem_toList.mpr hb))))
  have hdata : state.data = state'.data := Cell.option_eq_of_beq hdata fun a ha b hb =>
    told (href (hrefs (List.mem_append_right _ (Option.mem_toList.mpr ha))))
      (href' (hrefs' (List.mem_append_right _ (Option.mem_toList.mpr hb))))
  have hentries : state.library.entries = state'.library.entries :=
    Dictionary.entries_eq_of_beq hentries fun e he e' he' =>
      told (hvalue (List.mem_append_left _ he)) (hvalue (List.mem_append_right _ he'))
  obtain ⟨depth, special, code, data, ⟨width, entries⟩⟩ := state
  obtain ⟨depth', special', code', data', ⟨width', entries'⟩⟩ := state'
  cases hdepth
  cases hspecial
  cases hcode
  cases hdata
  cases hwidth
  cases hentries
  rfl

end StateInit

/-! ## Libraries in any order -/

/-- Values under different keys are put among some entries in any order. -/
theorem Dictionary.insert_comm {entries : List (Nat × Cell)} {key key' : Nat} {value value' : Cell}
    (sorted : entries.Pairwise fun a b => a.1 < b.1) (h : key ≠ key') :
    insert key value (insert key' value' entries) =
      insert key' value' (insert key value entries) := by
  refine eq_of_lookup (pairwise_insert (pairwise_insert sorted))
    (pairwise_insert (pairwise_insert sorted)) fun n => ?_
  simp only [lookup_insert]
  by_cases hn : n = key
  · rw [if_pos hn, if_neg fun hn' => h (hn.symm.trans hn'), if_pos hn]
  · rw [if_neg hn, if_neg hn]

namespace StateInit

variable {state state' : StateInit} {library library' : Library}
  {libraries libraries' : List Library}

/-- The number of the hash of a library, under which it is put. -/
def libraryKey (library : Library) : Nat :=
  Bytes.toNat library.root.hash.bytes

theorem libraryKey_inj (h : libraryKey library = libraryKey library') :
    library.root.hash = library'.root.hash := by
  refine Cell.digest_eq (Bytes.toNat_inj ?_ h)
  rw [Digest.length_bytes, Digest.length_bytes]

/-- A state with a value put under the key of a library. -/
def withValue (state : StateInit) (library : Library) (value : Cell) : StateInit :=
  { state with library := ⟨state.library.width,
      Dictionary.insert (libraryKey library) value state.library.entries⟩ }

/-- One more library is added if its value can be made and its key fits. -/
theorem addLibrary_eq_ok_iff : state.addLibrary library = .ok state' ↔
    ∃ value, Library.codec.toCell library = .ok value ∧
      libraryKey library < 2 ^ state.library.width ∧ state' = state.withValue library value := by
  unfold addLibrary Dictionary.setValue Dictionary.set
  simp only [bind_eq_ok_iff, pure_eq_ok_iff]
  constructor
  · rintro ⟨_, ⟨value, hvalue, _, ⟨n, hn, rfl⟩, rfl⟩, rfl⟩
    by_cases hlt : libraryKey library < 2 ^ state.library.width
    · rw [Dictionary.index_of_lt rfl hlt] at hn
      cases hn
      exact ⟨value, hvalue, hlt, rfl⟩
    · rw [Dictionary.index_of_not_lt rfl hlt] at hn
      cases hn
  · rintro ⟨value, hvalue, hlt, rfl⟩
    have hindex : state.library.index (.number (libraryKey library)) = .ok (libraryKey library) :=
      Dictionary.index_of_lt rfl hlt
    exact ⟨_, ⟨value, hvalue, _, ⟨libraryKey library, hindex, rfl⟩, rfl⟩, rfl⟩

/-- Libraries with different hashes are added in any order. -/
theorem addLibrary_comm (sorted : state.library.entries.Pairwise fun a b => a.1 < b.1)
    (h : library.root.hash ≠ library'.root.hash)
    (hadd : (do (← state.addLibrary library).addLibrary library') = .ok state') :
    (do (← state.addLibrary library').addLibrary library) = .ok state' := by
  obtain ⟨_, hfirst, hsecond⟩ := bind_eq_ok_iff.mp hadd
  obtain ⟨value, hvalue, hlt, rfl⟩ := addLibrary_eq_ok_iff.mp hfirst
  obtain ⟨value', hvalue', hlt', rfl⟩ := addLibrary_eq_ok_iff.mp hsecond
  have hcomm : (state.withValue library value).withValue library' value' =
      (state.withValue library' value').withValue library value := by
    unfold withValue
    dsimp only
    rw [Dictionary.insert_comm sorted fun hkey => h (libraryKey_inj hkey).symm]
  rw [hcomm]
  exact bind_eq_ok_iff.mpr ⟨_, addLibrary_eq_ok_iff.mpr ⟨value', hvalue', hlt', rfl⟩,
    addLibrary_eq_ok_iff.mpr ⟨value, hvalue, hlt, rfl⟩⟩

/-- **Libraries with different hashes** make the same state in any order. The induction is on the
permutation: two neighbours change places. -/
theorem foldlM_addLibrary_perm (hp : libraries.Perm libraries')
    (sorted : state.library.entries.Pairwise fun a b => a.1 < b.1)
    (distinct : libraries.Pairwise fun a b => a.root.hash ≠ b.root.hash)
    (h : libraries.foldlM addLibrary state = .ok state') :
    libraries'.foldlM addLibrary state = .ok state' := by
  induction hp generalizing state with
  | nil => exact h
  | cons library _ ih =>
    rw [List.foldlM_cons] at h ⊢
    obtain ⟨next, hadd, h⟩ := bind_eq_ok_iff.mp h
    obtain ⟨value, hvalue, hlt, rfl⟩ := addLibrary_eq_ok_iff.mp hadd
    exact bind_eq_ok_iff.mpr ⟨_, hadd,
      ih (Dictionary.pairwise_insert sorted) (List.pairwise_cons.mp distinct).2 h⟩
  | swap first second rest =>
    rw [List.foldlM_cons] at h ⊢
    simp only [List.foldlM_cons, ← bind_assoc] at h ⊢
    obtain ⟨next, hadd, h⟩ := bind_eq_ok_iff.mp h
    have hne := (List.pairwise_cons.mp distinct).1 first List.mem_cons_self
    exact bind_eq_ok_iff.mpr ⟨next, addLibrary_comm sorted hne hadd, h⟩
  | trans hp _ ih ih' =>
    have hsymm {a b : Library} (hne : a.root.hash ≠ b.root.hash) : b.root.hash ≠ a.root.hash :=
      hne.symm
    exact ih' sorted ((hp.pairwise_iff hsymm).mp distinct) (ih sorted distinct h)

/-! ## Addresses -/

theorem address_eq_ok_iff {workchain : Int8} {address : Address} :
    state.address workchain = .ok address ↔
      ∃ cell, codec.toCell state = .ok cell ∧ address = .ofParts workchain cell.hash := by
  unfold StateInit.address Codec.hash
  simp only [map_eq_ok_iff]
  constructor
  · rintro ⟨_, ⟨cell, hc, rfl⟩, rfl⟩
    exact ⟨cell, hc, rfl⟩
  · rintro ⟨cell, hc, rfl⟩
    exact ⟨_, ⟨cell, hc, rfl⟩, rfl⟩

/-- **The address of a contract identifies its initial state.** Contracts with one address are of
one workchain and start from one state, unless two different messages hashed for the cells of the
two states have one digest. Contracts of one workchain that start from equal states have one
address, unless two different messages hashed for these cells and for the values of the libraries
have one digest. And libraries with different hashes give the same address in whatever order they
are added. -/
theorem address_identifies :
    (∀ (s₁ s₂ : StateInit) (w₁ w₂ : Int8) (a₁ a₂ : Address), s₁.Valid → s₂.Valid →
      s₁.address w₁ = .ok a₁ → s₂.address w₂ = .ok a₂ →
        ∃ c₁ c₂, codec.toCell s₁ = .ok c₁ ∧ codec.toCell s₂ = .ok c₂ ∧
          (a₁ = a₂ → w₁ = w₂ ∧ (s₁ == s₂) = true ∧ s₁ = s₂ ∨ Cell.Collision [c₁, c₂]) ∧
          (w₁ = w₂ ∧ (s₁ == s₂) = true →
            a₁ = a₂ ∨ Cell.Collision (c₁ :: c₂ :: values s₁ s₂))) ∧
    ∀ (state : StateInit) (libraries libraries' : List Library), state.Valid →
      libraries.Perm libraries' → libraries.Pairwise (fun a b => a.root.hash ≠ b.root.hash) →
        ∀ (workchain : Int8) (address : Address),
          (do (← libraries.foldlM addLibrary state).address workchain) = .ok address ↔
            (do (← libraries'.foldlM addLibrary state).address workchain) = .ok address := by
  refine ⟨fun s₁ s₂ w₁ w₂ a₁ a₂ hv₁ hv₂ h₁ h₂ => ?_, fun state ls ls' hv hp hd w a => ?_⟩
  · obtain ⟨c₁, hc₁, rfl⟩ := address_eq_ok_iff.mp h₁
    obtain ⟨c₂, hc₂, rfl⟩ := address_eq_ok_iff.mp h₂
    refine ⟨c₁, c₂, hc₁, hc₂, fun ha => ?_, fun ⟨hw, hs⟩ => ?_⟩
    · obtain ⟨hw, hhash⟩ : w₁ = w₂ ∧ c₁.hash = c₂.hash := by simpa [Address.ofParts] using ha
      rcases Cell.collision_or_free [c₁, c₂] with hcollision | free
      · exact .inr hcollision
      · have made : ∀ root ∈ [c₁, c₂], root.Made := by
          simpa using ⟨(made_toCell hv₁ hc₁).1, (made_toCell hv₂ hc₂).1⟩
        have hcell : c₁ = c₂ := Cell.eq_of_hash_eq made free (Cell.reachable_self (by simp))
          (Cell.reachable_self (by simp)) hhash
        -- one cell is read as one state
        have hreturns₁ : codec.Returns true s₁ := returns_codec hv₁
        have hreturns₂ : codec.Returns true s₂ := returns_codec hv₂
        have hread₁ := hreturns₁.ofCell_toCell hc₁
        have hread₂ := hreturns₂.ofCell_toCell hc₂
        rw [hcell, hread₂] at hread₁
        obtain rfl := Except.ok.inj hread₁
        exact .inl ⟨hw, beq_self _, rfl⟩
    · rcases Cell.collision_or_free (c₁ :: c₂ :: values s₁ s₂) with hcollision | free
      · exact .inr hcollision
      · obtain rfl := eq_of_beq hv₁ hv₂ hc₁ hc₂ free hs
        rw [hc₁] at hc₂
        cases hc₂
        exact .inl (by rw [hw])
  · have hsymm {a b : Library} (hne : a.root.hash ≠ b.root.hash) : b.root.hash ≠ a.root.hash :=
      hne.symm
    simp only [bind_eq_ok_iff]
    constructor
    · rintro ⟨state', h, ha⟩
      exact ⟨state', foldlM_addLibrary_perm hp hv.library.sorted hd h, ha⟩
    · rintro ⟨state', h, ha⟩
      exact ⟨state', foldlM_addLibrary_perm hp.symm hv.library.sorted
        ((hp.pairwise_iff hsymm).mp hd) h, ha⟩

/-- A state with code alone. -/
def coded : StateInit := { code := some .empty }

/-- A state of the same code that runs at the beginning of each block. -/
def ticking : StateInit := { coded with special := some ⟨true, false⟩ }

theorem valid_coded : coded.Valid :=
  ⟨fun | _, rfl => Cell.made_empty, nofun, Dictionary.valid_empty 256⟩

theorem valid_ticking : ticking.Valid :=
  ⟨fun | _, rfl => Cell.made_empty, nofun, Dictionary.valid_empty 256⟩

/-- A public library and one that is not. -/
def shelf : List Library := [⟨true, .empty⟩, ⟨false, Cell.stub⟩]

/-- Two states have addresses that tell them apart, and two libraries may be added to one of them in
any order. -/
theorem address_identifies_coded :
    (∃ a₁ a₂ c₁ c₂, coded.address 0 = .ok a₁ ∧ ticking.address (-1) = .ok a₂ ∧
      codec.toCell coded = .ok c₁ ∧ codec.toCell ticking = .ok c₂ ∧
        (a₁ = a₂ → (0 : Int8) = -1 ∧ (coded == ticking) = true ∧ coded = ticking ∨
          Cell.Collision [c₁, c₂])) ∧
    (shelf.foldlM addLibrary coded).toBool = true ∧ ∀ address,
      (do (← shelf.foldlM addLibrary coded).address 0) = .ok address ↔
        (do (← shelf.reverse.foldlM addLibrary coded).address 0) = .ok address := by
  obtain ⟨htold, horder⟩ := address_identifies
  obtain ⟨a₁, h₁⟩ : ∃ a₁, coded.address 0 = .ok a₁ := ⟨_, rfl⟩
  obtain ⟨a₂, h₂⟩ : ∃ a₂, ticking.address (-1) = .ok a₂ := ⟨_, rfl⟩
  obtain ⟨c₁, c₂, hc₁, hc₂, hsame, -⟩ :=
    htold coded ticking 0 (-1) a₁ a₂ valid_coded valid_ticking h₁ h₂
  have hdistinct : shelf.Pairwise fun a b => a.root.hash ≠ b.root.hash := by decide +kernel
  refine ⟨⟨a₁, a₂, c₁, c₂, h₁, h₂, hc₁, hc₂, hsame⟩, by decide +kernel, ?_⟩
  exact horder coded shelf shelf.reverse valid_coded (List.reverse_perm shelf).symm hdistinct 0

end StateInit

end BagOfCells
