import Conformance.Proofs.Builder.Lists
import Conformance.Proofs.Builder.Stored
import Conformance.Proofs.Requirements
/-! Compositions as they are laid out and read back: a header of three fields of different widths,
and behind it one pointer after the other. -/
namespace Conformance

/-- An encoding whose fields come one after the other, and whose references are plain pointers as
they are. -/
structure CompositionLayout.Regular (encoding : CompositionLayout) (bits word : Nat) : Prop where
  kind : encoding.kindOffset.toNat + word ≤ encoding.flagsOffset.toNat
  flags : encoding.flagsOffset.toNat + 4 ≤ encoding.countOffset.toNat
  count : encoding.countOffset.toNat + 4 ≤ encoding.trailingOffset.toNat
  mask : Address.Keeps bits encoding.protocolMask

/-- The compositions of the catalogue are regular. -/
theorem Runtime.regular_composition (runtime : Runtime) {encoding : CompositionLayout}
    (hEncoding : runtime.layout.composition = some encoding) :
    encoding.Regular runtime.addressBits runtime.layout.pointerWidth.bytes := by
  cases runtime with
  | objc2Arm64 | objc2X86_64 => cases hEncoding
  | compact64 | compact32 =>
      cases hEncoding
      exact ⟨by decide, by decide, by decide, Address.keeps_of_testBit (by decide)⟩

namespace Layout

variable (layout : Layout) (contents : Contents)

/-- Pointers lie one after the other from a position on. -/
inductive StoresEach : (position : Nat) → List Address → Prop where
  | nil (position : Nat) : StoresEach position []
  | cons {position : Nat} {pointer : Address} {rest : List Address}
      (first : layout.Stores contents position pointer)
      (later : StoresEach (position + layout.pointerWidth.bytes) rest) :
      StoresEach position (pointer :: rest)

/-- The header of a composition as it is laid out. -/
structure HasHeader (encoding : CompositionLayout) (requirements : Requirements)
    (composition : Address) : Prop where
  kind : layout.Stores contents (Address.plus composition encoding.kindOffset) Kind.existential.word
  flags : contents.Holds (Address.plus composition encoding.flagsOffset)
    (layout.order.encode 4 requirements.flags.bits.toNat)
  count : contents.Holds (Address.plus composition encoding.countOffset)
    (layout.order.encode 4 requirements.protocols.length)

/-- The words of a composition's header, in the order in which they are written. -/
def headerWords (encoding : CompositionLayout) (requirements : Requirements) : List Stored :=
  [⟨encoding.kindOffset.toNat,
      layout.order.encode layout.pointerWidth.bytes Kind.existential.word.toNat⟩,
    ⟨encoding.flagsOffset.toNat, layout.order.encode 4 requirements.flags.bits.toNat⟩,
    ⟨encoding.countOffset.toNat, layout.order.encode 4 requirements.protocols.length⟩]

/-- A composition as it is laid out. -/
structure HasComposition (encoding : CompositionLayout) (requirements : Requirements)
    (composition : Address) : Prop where
  nonnull : composition ≠ 0
  bound : requirements.protocols.length < UInt32.size
  header : layout.HasHeader contents encoding requirements composition
  trailing : layout.StoresEach contents (Address.plus composition encoding.trailingOffset)
    requirements.trailing

variable {layout contents} {whole : Contents} {encoding : CompositionLayout}
  {requirements : Requirements} {composition : Address}

theorem StoresEach.mono {position : Nat} {pointers : List Address}
    (stores : layout.StoresEach contents position pointers) (within : contents.Within whole) :
    layout.StoresEach whole position pointers := by
  induction stores with
  | nil position => exact .nil position
  | cons first _ ih => exact .cons (first.mono within) ih

theorem HasComposition.mono (has : layout.HasComposition contents encoding requirements composition)
    (within : contents.Within whole) :
    layout.HasComposition whole encoding requirements composition where
  nonnull := has.nonnull
  bound := has.bound
  header := ⟨has.header.kind.mono within, has.header.flags.mono within,
    has.header.count.mono within⟩
  trailing := has.trailing.mono within

theorem StoresEach.since {start position : Nat} {pointers : List Address}
    (stores : layout.StoresEach contents position pointers) (hStart : start ≤ position) :
    layout.StoresEach (contents.since start) position pointers := by
  induction stores with
  | nil position => exact .nil position
  | cons first _ ih =>
      exact .cons (first.since hStart) (ih (Nat.le_trans hStart (Nat.le_add_right _ _)))

/-- A composition is laid out from its address on. -/
theorem HasComposition.since {start : Nat}
    (has : layout.HasComposition contents encoding requirements composition)
    (hStart : start ≤ composition.toNat) :
    layout.HasComposition (contents.since start) encoding requirements composition := by
  have hField (offset : UInt64) : start ≤ Address.plus composition offset :=
    Nat.le_trans hStart (Nat.le_add_right _ _)
  refine ⟨has.nonnull, has.bound, ⟨?_, ?_, ?_⟩, has.trailing.since (hField _)⟩
  · exact has.header.kind.since (hField _)
  · exact has.header.flags.since (hField _)
  · exact has.header.count.since (hField _)

theorem headerWords_finish_le_iff {limit : Nat} :
    (∀ word ∈ layout.headerWords encoding requirements, word.finish ≤ limit) ↔
      encoding.kindOffset.toNat + layout.pointerWidth.bytes ≤ limit ∧
        encoding.flagsOffset.toNat + 4 ≤ limit ∧ encoding.countOffset.toNat + 4 ≤ limit := by
  simp [headerWords, Stored.finish, ByteOrder.length_encode]

/-- The words of a header agree if its fields do not overlap. -/
theorem headerWords_agree
    (hKindFlags : encoding.kindOffset.toNat + layout.pointerWidth.bytes ≤
        encoding.flagsOffset.toNat ∨
      encoding.flagsOffset.toNat + 4 ≤ encoding.kindOffset.toNat)
    (hKindCount : encoding.kindOffset.toNat + layout.pointerWidth.bytes ≤
        encoding.countOffset.toNat ∨
      encoding.countOffset.toNat + 4 ≤ encoding.kindOffset.toNat)
    (hFlagsCount : encoding.flagsOffset.toNat + 4 ≤ encoding.countOffset.toNat ∨
      encoding.countOffset.toNat + 4 ≤ encoding.flagsOffset.toNat) :
    (layout.headerWords encoding requirements).Pairwise Stored.Agrees := by
  have hAgrees {first second width other number more : Nat}
      (h : first + width ≤ second ∨ second + other ≤ first) :
      Stored.Agrees ⟨first, layout.order.encode width number⟩
        ⟨second, layout.order.encode other more⟩ := by
    apply Stored.agrees_of_apart
    unfold Stored.finish
    rwa [ByteOrder.length_encode, ByteOrder.length_encode]
  refine .cons (List.forall_mem_cons.mpr ⟨hAgrees hKindFlags, ?_⟩)
    (.cons ?_ (List.pairwise_singleton _ _))
  · exact List.forall_mem_singleton.mpr (hAgrees hKindCount)
  · exact List.forall_mem_singleton.mpr (hAgrees hFlagsCount)

theorem hasHeader_iff_within : layout.HasHeader contents encoding requirements composition ↔
    ∀ word ∈ (layout.headerWords encoding requirements).map (Stored.shift composition.toNat),
      word.byte?.Within contents := by
  have hField (offset : UInt64) (bytes : List UInt8) :
      contents.Holds (Address.plus composition offset) bytes ↔
        (Stored.shift composition.toNat ⟨offset.toNat, bytes⟩).byte?.Within contents :=
    @Stored.holds_iff_within (Stored.shift composition.toNat ⟨offset.toNat, bytes⟩) contents
  rw [List.forall_mem_map]
  constructor
  · intro header
    refine List.forall_mem_cons.mpr ⟨(hField _ _).mp header.kind, ?_⟩
    refine List.forall_mem_cons.mpr ⟨(hField _ _).mp header.flags, ?_⟩
    exact List.forall_mem_singleton.mpr ((hField _ _).mp header.count)
  · intro words
    obtain ⟨kind, words⟩ := List.forall_mem_cons.mp words
    obtain ⟨flags, count⟩ := List.forall_mem_cons.mp words
    exact ⟨(hField _ _).mpr kind, (hField _ _).mpr flags,
      (hField _ _).mpr (count _ List.mem_cons_self)⟩

/-- The words of a header that was written are all there exactly if they agree. -/
theorem hasHeader_iff_agree
    (written : (Stored.overlay ((layout.headerWords encoding requirements).map
      (Stored.shift composition.toNat))).Within contents) :
    layout.HasHeader contents encoding requirements composition ↔
      (layout.headerWords encoding requirements).Pairwise Stored.Agrees := by
  rw [hasHeader_iff_within, Stored.forall_within_iff written, List.pairwise_map]
  simp only [Stored.agrees_shift_iff]

/-- A stored half word is read back. -/
theorem run_readHalf {reader : Reader} (shows : reader.Shows contents) {position value : Nat}
    (holds : contents.Holds position (layout.order.encode 4 value)) (hValue : value < UInt32.size) :
    (layout.readHalf position).run reader = some value.toUInt32 := by
  have hFetch := shows.run_fetch holds (encode_ne_nil _ .four _) fun bytes =>
    (layout.order.decode bytes).toUInt32
  have hBound : value < 256 ^ 4 := hValue
  rw [ByteOrder.length_encode, ByteOrder.decode_encode, Nat.mod_eq_of_lt hBound] at hFetch
  exact hFetch

end Layout

namespace Builder

variable {builder : Builder} {bits : Nat} {reader : Reader}

/-- Plain pointers that were laid out are read back, one after the other. -/
theorem refers_of_storesEach (regular : builder.layout.Regular bits)
    (shows : reader.Shows builder.byte?) (hFinish : builder.finish < UInt64.size) {mask : UInt64}
    (hMask : Address.Keeps bits mask) {position : Nat} {pointers : List Address}
    (stores : builder.layout.StoresEach builder.byte? position pointers)
    (hPointers : ∀ pointer ∈ pointers, pointer ≠ 0 ∧ Address.Plain bits pointer) :
    Metadata.Refers ⟨builder.layout, reader⟩ mask position pointers := by
  induction stores with
  | nil position => exact .nil position
  | @cons position pointer rest first _ ih =>
      obtain ⟨hNonnull, plain⟩ := hPointers pointer List.mem_cons_self
      have hEnd := (bounds_of_holds first (Layout.encode_ne_nil _ _ _)).2
      rw [ByteOrder.length_encode] at hEnd
      have hRead := Layout.run_readPointer regular shows first plain
      exact .cons hRead hNonnull (hMask pointer plain) (Nat.lt_of_le_of_lt hEnd hFinish)
        (ih fun other h => hPointers other (List.mem_cons_of_mem _ h))

/-- A composition that was laid out is read back. -/
theorem readsComposition (regular : builder.layout.Regular bits)
    (shows : reader.Shows builder.byte?) (hFinish : builder.finish < UInt64.size)
    {encoding : CompositionLayout} {word : Nat} (hEncoding : encoding.Regular bits word)
    {requirements : Requirements} {composition : Address}
    (has : builder.layout.HasComposition builder.byte? encoding requirements composition)
    (hTrailing : ∀ pointer ∈ requirements.trailing, pointer ≠ 0 ∧ Address.Plain bits pointer) :
    Metadata.ReadsComposition ⟨builder.layout, reader⟩ encoding requirements composition where
  nonnull := has.nonnull
  kind := by
    apply Layout.run_readWord shows has.header.kind
    cases builder.layout.pointerWidth <;> decide
  flags := by
    have hRead := Layout.run_readHalf shows has.header.flags requirements.flags.bits.toNat_lt_size
    rw [Nat.toUInt32_eq, UInt32.ofNat_toNat] at hRead
    exact hRead
  count := ⟨_, Layout.run_readHalf shows has.header.count has.bound,
    UInt32.toNat_ofNat_of_lt has.bound⟩
  trailing := refers_of_storesEach regular shows hFinish hEncoding.mask has.trailing hTrailing

end Builder

namespace Build

variable {builder : Builder} {bits : Nat}

/-- Pointers are written one after the other, behind everything that was written before. -/
theorem ensures_writePointers (position : Address) (pointers : List Address) :
    Ensures (writePointers position pointers) builder
      (fun _ after => Builder.Grows (fun other => other < position.toNat) builder after ∧
        builder.layout.StoresEach after.byte? position.toNat pointers)
      (fun after => Builder.Grows (fun other => other < position.toNat) builder after) := by
  induction pointers generalizing builder position with
  | nil => exact ⟨Builder.Grows.refl _, .nil _⟩
  | cons pointer rest ih =>
      unfold writePointers
      rw [ensures_bind]
      refine (ensures_writePointer position pointer).mono (fun _ first h => ?_) fun after h =>
        h ▸ Builder.Grows.refl _
      obtain ⟨written, -, stores⟩ := h
      have grown : Builder.Grows (fun other => other < position.toNat) builder first :=
        written.weaken fun other _ _ h => Or.inl h
      rw [ensures_bind, ensures_get, ensures_bind]
      refine ensures_place (fun next hNext => ?_) grown
      have hWord : first.word.toNat = builder.layout.pointerWidth.bytes := by
        unfold Builder.word
        rw [written.layout]
        exact Width.word_toNat _
      unfold Address.plus at hNext
      rw [hWord] at hNext
      have hKept (after : Builder)
          (grows : Builder.Grows (fun other => other < next.toNat) first after) :
          Builder.Grows (fun other => other < position.toNat) builder after :=
        grown.beyond grows fun other _ h => by omega
      have later := @ih first next
      rw [written.layout] at later
      refine later.mono (fun _ after h => ?_) hKept
      obtain ⟨grows, each⟩ := h
      refine ⟨hKept after grows, .cons ?_ (hNext ▸ each)⟩
      exact grows.stores stores fun other _ hHigh => by omega

/-- The header of a composition is written word by word, and the words behind it leave it alone. -/
theorem ensures_composition_overlaid (requirements : Requirements) (fits : builder.Fits)
    {encoding : CompositionLayout} (hEncoding : builder.layout.composition = some encoding)
    (hEnds : ∀ word ∈ builder.layout.headerWords encoding requirements,
      word.finish ≤ encoding.trailingOffset.toNat) :
    Ensures (composition requirements.protocols requirements.superclass) builder
      (fun composition after => Builder.Extends builder after ∧
        composition.toNat = builder.finish ∧ requirements.protocols.length < UInt32.size ∧
        (Stored.overlay ((builder.layout.headerWords encoding requirements).map
          (Stored.shift composition.toNat))).Within after.byte? ∧
        builder.layout.StoresEach after.byte?
          (Address.plus composition encoding.trailingOffset) requirements.trailing)
      (fun after => Builder.Extends builder after) := by
  unfold composition
  rw [ensures_bind, ensures_get, hEncoding]
  dsimp only
  by_cases hMany : UInt32.size ≤ requirements.protocols.length
  · rw [if_pos hMany]
    exact Builder.Grows.refl _
  rw [if_neg hMany, ensures_bind]
  have hBound := Nat.lt_of_not_le hMany
  have hLength : requirements.protocols.length.toUInt64.toNat = requirements.protocols.length :=
    UInt64.toNat_ofNat_of_lt' (Nat.lt_trans hBound (by decide))
  refine (ensures_allocate_of_fits _ fits).mono (fun composition first h => ?_) fun _ h =>
    h ▸ Builder.Grows.refl _
  obtain ⟨extended, -, hAddress, -⟩ := h
  -- What was laid out before is not in the new block.
  have hKept {middle after : Builder} {kept : Nat → Prop}
      (hBlock : ∀ position, position < composition.toNat → kept position)
      (left : Builder.Extends builder middle) (right : Builder.Grows kept middle after) :
      Builder.Extends builder after :=
    left.beyond right fun position hHigh _ => hBlock position (hAddress.symm ▸ hHigh)
  have hField {middle after : Builder} {offset : UInt64} {width : Nat}
      (left : Builder.Extends builder middle)
      (right : Builder.Grows (Outside (Address.plus composition offset) width) middle after) :
      Builder.Extends builder after :=
    hKept (fun _ h => Or.inl (Nat.lt_of_lt_of_le h (Nat.le_add_right _ _))) left right
  have nothing : (Stored.overlay ([].map (Stored.shift composition.toNat))).Within first.byte? :=
    fun _ _ h => nomatch h
  refine ensures_overlaid (ensures_pointerBytes _) nothing (fun second written kind => ?_) extended
  have hSecond := hField extended written
  refine ensures_overlaid (ensures_fieldBytes _ _) kind (fun third written flags => ?_) hSecond
  have hThird := hField hSecond written
  refine ensures_overlaid (ensures_fieldBytes _ _) flags (fun fourth written header => ?_) hThird
  have hFourth := hField hThird written
  rw [hThird.layout, hSecond.layout, extended.layout, UInt32.toNat_toUInt64, hLength] at header
  rw [ensures_bind]
  refine ensures_place (fun position hPosition => ?_) hFourth
  rw [ensures_bind]
  have hAll {after : Builder} (grows : Builder.Grows (fun other => other < position.toNat)
      fourth after) : Builder.Extends builder after :=
    hKept (fun _ h => Nat.lt_of_lt_of_le h (hPosition ▸ Nat.le_add_right _ _)) hFourth grows
  refine (ensures_writePointers position requirements.trailing).mono (fun _ last h => ?_)
    fun _ grows => hAll grows
  obtain ⟨grows, trailing⟩ := h
  rw [hFourth.layout, hPosition] at trailing
  refine ⟨hAll grows, hAddress, hBound, fun other byte hByte => ?_, trailing⟩
  refine grows.bytes other byte ?_ (header other byte hByte)
  obtain ⟨word, hWord, hHere⟩ := Stored.exists_of_overlay hByte
  obtain ⟨field, hMem, rfl⟩ := List.mem_map.mp hWord
  have hInside := (Stored.inside_of_byte? hHere).2
  rw [Stored.finish_shift] at hInside
  have hEnd := hEnds field hMem
  unfold Address.plus at hPosition
  omega

/-- A composition is laid out after everything else. -/
theorem ensures_composition (requirements : Requirements) (hSound : builder.Sound)
    (hRegular : ∀ encoding, builder.layout.composition = some encoding →
      encoding.Regular bits builder.layout.pointerWidth.bytes) :
    Ensures (composition requirements.protocols requirements.superclass) builder
      (fun composition after => Builder.Extends builder after ∧
        ∃ encoding, builder.layout.composition = some encoding ∧
          builder.layout.HasComposition (after.byte?.since builder.finish) encoding requirements
            composition)
      (fun after => Builder.Extends builder after) := by
  cases hWhere : builder.layout.composition with
  | none =>
      unfold composition
      rw [ensures_bind, ensures_get, hWhere]
      exact Builder.Grows.refl _
  | some encoding =>
      have hEncoding := hRegular encoding hWhere
      have hKindEnd := hEncoding.kind
      have hFlagsEnd := hEncoding.flags
      have hCountEnd := hEncoding.count
      have hEnds : ∀ word ∈ builder.layout.headerWords encoding requirements,
          word.finish ≤ encoding.trailingOffset.toNat :=
        Layout.headerWords_finish_le_iff.mpr (by omega)
      refine (ensures_composition_overlaid requirements hSound.fits hWhere hEnds).mono
        (fun composition after h => ?_) fun _ h => h
      obtain ⟨extended, hAddress, hBound, written, trailing⟩ := h
      have header := (Layout.hasHeader_iff_agree written).mpr
        (Layout.headerWords_agree (by omega) (by omega) (by omega))
      have has : builder.layout.HasComposition after.byte? encoding requirements composition :=
        ⟨(hSound.finish_block hAddress).1, hBound, header, trailing⟩
      exact ⟨extended, encoding, rfl, has.since (Nat.le_of_eq hAddress.symm)⟩

end Build

end Conformance
