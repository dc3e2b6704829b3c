import Conformance.Proofs.Builder.Compositions
import Conformance.Proofs.Builder.Reachable
import Conformance.Proofs.Masks
import Conformance.Proofs.Separation
/-! What an accepted layout is good for. The three words of a composition's header are written one
after the other, at offsets that validation does not compare with each other. They are read back as
they were written exactly if they have the same bytes where they overlap. -/
namespace Conformance

namespace Layout

/-- The header of a composition reads as it was written. -/
structure ReadsHeader (layout : Layout) (reader : Reader) (encoding : CompositionLayout)
    (requirements : Requirements) (composition : Address) : Prop where
  kind : (layout.readWord (Address.plus composition encoding.kindOffset)).run reader =
    some Kind.existential.word
  flags : (layout.readHalf (Address.plus composition encoding.flagsOffset)).run reader =
    some requirements.flags.bits
  count : (layout.readHalf (Address.plus composition encoding.countOffset)).run reader =
    some requirements.protocols.length.toUInt32

end Layout

namespace Builder

variable {builder : Builder} {layout : Layout} {position : Nat}

/-- A field that is decoded to a number in one way only reads as this number where it is stored. -/
theorem run_fetch_iff_holds {α : Type} {order : ByteOrder} {width number : Nat}
    {decode : List UInt8 → α} {value : α} (hWidth : 0 < width)
    (hDecode : ∀ bytes, bytes.length = width → (decode bytes = value ↔ order.decode bytes = number))
    (hNumber : number < 256 ^ width) :
    (Probe.fetch position width decode).run builder.read = some value ↔
      position + width < UInt64.size ∧
        builder.byte?.Holds position (order.encode width number) := by
  refine (run_fetch_eq_some_iff hWidth).trans (and_congr_right fun _ => ?_)
  constructor
  · intro h
    obtain ⟨bytes, hBytes, holds, hValue⟩ := h
    rw [← (ByteOrder.decode_eq_iff hBytes hNumber).mp ((hDecode bytes hBytes).mp hValue)]
    exact holds
  · intro holds
    have hBytes := ByteOrder.length_encode order width number
    refine ⟨_, hBytes, holds, (hDecode _ hBytes).mpr ?_⟩
    rw [ByteOrder.decode_encode, Nat.mod_eq_of_lt hNumber]

theorem run_readWord_iff {value : UInt64} (hValue : value.toNat < 256 ^ layout.pointerWidth.bytes) :
    (layout.readWord position).run builder.read = some value ↔
      position + layout.pointerWidth.bytes < UInt64.size ∧
        layout.Stores builder.byte? position value := by
  refine run_fetch_iff_holds layout.pointerWidth.bytes_pos (fun bytes hBytes => ?_) hValue
  have hSmall : layout.order.decode bytes < UInt64.size := by
    refine Nat.lt_of_lt_of_le (layout.order.decode_lt bytes) ?_
    exact hBytes ▸ Nat.pow_le_pow_right (by decide) layout.pointerWidth.bytes_le
  unfold Layout.decodeWord
  rw [← UInt64.toNat_inj, Nat.toUInt64_eq, UInt64.toNat_ofNat_of_lt' hSmall]

theorem run_readHalf_iff {value : UInt32} :
    (layout.readHalf position).run builder.read = some value ↔
      position + 4 < UInt64.size ∧
        builder.byte?.Holds position (layout.order.encode 4 value.toNat) := by
  refine run_fetch_iff_holds (by decide) (fun bytes hBytes => ?_) value.toNat_lt
  have hSmall : layout.order.decode bytes < UInt32.size := by
    have hDecode := layout.order.decode_lt bytes
    rw [hBytes] at hDecode
    exact hDecode
  rw [← UInt32.toNat_inj, Nat.toUInt32_eq, UInt32.toNat_ofNat_of_lt' hSmall]

/-- A header reads as it was written exactly if it is laid out and no field ends where the address
space does. -/
theorem readsHeader_iff {encoding : CompositionLayout} {requirements : Requirements}
    {composition : Address} (hBound : requirements.protocols.length < UInt32.size) :
    layout.ReadsHeader builder.read encoding requirements composition ↔
      layout.HasHeader builder.byte? encoding requirements composition ∧
        ∀ word ∈ layout.headerWords encoding requirements,
          composition.toNat + word.finish < UInt64.size := by
  have hKind : Kind.existential.word.toNat < 256 ^ layout.pointerWidth.bytes := by
    cases layout.pointerWidth <;> decide
  have hCount : requirements.protocols.length.toUInt32.toNat = requirements.protocols.length :=
    UInt32.toNat_ofNat_of_lt' hBound
  have hEnds : (∀ word ∈ layout.headerWords encoding requirements,
        composition.toNat + word.finish < UInt64.size) ↔
      Address.plus composition encoding.kindOffset + layout.pointerWidth.bytes < UInt64.size ∧
        Address.plus composition encoding.flagsOffset + 4 < UInt64.size ∧
        Address.plus composition encoding.countOffset + 4 < UInt64.size := by
    simp [Layout.headerWords, Stored.finish, ByteOrder.length_encode, Address.plus, Nat.add_assoc]
  constructor
  · intro reads
    obtain ⟨hKindEnd, kind⟩ := (run_readWord_iff hKind).mp reads.kind
    obtain ⟨hFlagsEnd, flags⟩ := run_readHalf_iff.mp reads.flags
    obtain ⟨hCountEnd, count⟩ := run_readHalf_iff.mp reads.count
    rw [hCount] at count
    exact ⟨⟨kind, flags, count⟩, hEnds.mpr ⟨hKindEnd, hFlagsEnd, hCountEnd⟩⟩
  · intro h
    obtain ⟨header, ends⟩ := h
    obtain ⟨hKindEnd, hFlagsEnd, hCountEnd⟩ := hEnds.mp ends
    have count := header.count
    rw [← hCount] at count
    exact ⟨(run_readWord_iff hKind).mpr ⟨hKindEnd, header.kind⟩,
      run_readHalf_iff.mpr ⟨hFlagsEnd, header.flags⟩, run_readHalf_iff.mpr ⟨hCountEnd, count⟩⟩

end Builder

namespace Layout

variable {layout : Layout}

/-- The words of a header agree if its fields do not overlap. -/
theorem HeaderApart.agree (apart : layout.HeaderApart) {encoding : CompositionLayout}
    (hEncoding : layout.composition = some encoding) (requirements : Requirements) :
    (layout.headerWords encoding requirements).Pairwise Stored.Agrees := by
  obtain ⟨hKindFlags, hKindCount, hFlagsCount⟩ :=
    headerFields_apart_iff.mp (apart encoding hEncoding)
  exact headerWords_agree hKindFlags hKindCount hFlagsCount

/-- A composition that was laid out reads as it was written exactly if the words of its header
agree, unless a field ends where the address space does. -/
theorem Checked.readsHeader_iff (checked : layout.Checked) {encoding : CompositionLayout}
    (hEncoding : layout.composition = some encoding) {requirements : Requirements} {base : Address}
    {builder : Builder} {composition : Address} (run : (Builder.start layout base).Reaches builder)
    (hResult : builder.result?
      (Build.composition requirements.protocols requirements.superclass) = some composition) :
    layout.ReadsHeader
        (builder.after (Build.composition requirements.protocols requirements.superclass)).read
        encoding requirements composition ↔
      (layout.headerWords encoding requirements).Pairwise Stored.Agrees ∧
        ∀ word ∈ layout.headerWords encoding requirements,
          composition.toNat + word.finish < UInt64.size := by
  have continues := run.continues (Builder.fits_start _ _)
  have hLayout : builder.layout = layout := continues.layout
  subst hLayout
  have hEnds : ∀ word ∈ builder.layout.headerWords encoding requirements,
      word.finish ≤ encoding.trailingOffset.toNat :=
    headerWords_finish_le_iff.mpr (headerFields_iff.mp (checked.trailing encoding hEncoding))
  obtain ⟨-, -, hBound, written, -⟩ := (Build.ensures_composition_overlaid requirements
    continues.fits hEncoding hEnds).of_run hResult
  rw [Builder.readsHeader_iff hBound, hasHeader_iff_agree written]

/-- What is accepted, and what follows. The fields of records and lists of an accepted layout are
apart, and so are the header of a composition and the words behind it. The fields of the header may
overlap, and a mask may remove all that the other masks leave; a layout is what it should be if
neither is the case. The header of a composition reads as it was written if its fields do not
overlap, and otherwise if the words in it happen to have the same bytes where they do. -/
theorem accepted_keeps_apart (layout : Layout)
    (hOffsets : ∀ offset ∈ layout.offsets, offset.toNat < 2 ^ 32) :
    (layout.validate = .ok () ↔ layout.Checked) ∧
    (layout.Separate ↔ layout.validate = .ok () ∧ layout.HeaderApart ∧ layout.MasksMeet) ∧
    (∀ hop, layout.Erases hop ↔
      layout.pointerBits &&& hop.mask = 0 ∧ layout.pointerBits &&& hop.tag = 0) ∧
    (∀ mask, layout.ErasesReference mask ↔ layout.pointerBits &&& mask = 0) ∧
    (layout.validate = .ok () → ∀ encoding, layout.composition = some encoding → ∀ requirements,
      (layout.HeaderApart → (layout.headerWords encoding requirements).Pairwise Stored.Agrees) ∧
      ∀ base builder composition, (Builder.start layout base).Reaches builder →
        builder.result? (Build.composition requirements.protocols requirements.superclass) =
          some composition →
        (layout.ReadsHeader
            (builder.after (Build.composition requirements.protocols requirements.superclass)).read
            encoding requirements composition ↔
          (layout.headerWords encoding requirements).Pairwise Stored.Agrees ∧
            ∀ word ∈ layout.headerWords encoding requirements,
              composition.toNat + word.finish < UInt64.size)) := by
  have hAccepted : layout.validate = .ok () ↔ layout.Checked :=
    (validate_eq_ok_iff_consistent hOffsets).trans consistent_iff_checked
  refine ⟨hAccepted, separate_iff_checked.trans (and_congr_left' hAccepted.symm),
    fun _ => erases_iff, fun _ => erasesReference_iff,
    fun hValid encoding hEncoding requirements => ?_⟩
  exact ⟨fun apart => apart.agree hEncoding requirements,
    fun base builder composition run hResult =>
      (hAccepted.mp hValid).readsHeader_iff hEncoding run hResult⟩

/-- The compact layout is what it should be, and a composition of it reads as it was written. -/
theorem compact_keeps_apart :
    let layout := compact .eight
    let encoding : CompositionLayout := ⟨0, 8, 12, 16, ~~~1⟩
    let requirements : Requirements := ⟨[0x1000], some 0x2000⟩
    let builder := Builder.start layout Builder.defaultBase
    let composition := Build.composition requirements.protocols requirements.superclass
    layout.Separate ∧ builder.result? composition = some Builder.defaultBase ∧
      layout.ReadsHeader (builder.after composition).read encoding requirements
        Builder.defaultBase := by
  intro layout encoding requirements builder composition
  have hApart : layout.HeaderApart := by
    intro other hOther
    obtain rfl := Option.some.inj hOther
    exact headerFields_apart_iff.mpr (by decide)
  have hMasks : layout.MasksMeet := by
    refine ⟨by decide, fun other hOther => ?_⟩
    obtain rfl := Option.some.inj hOther
    decide
  have hResult : builder.result? composition = some Builder.defaultBase := by decide +kernel
  have hValid : layout.validate = .ok () := by decide +kernel
  obtain ⟨-, hSeparate, -, -, hReads⟩ :=
    accepted_keeps_apart layout (offsets_lt_of_all (by decide +kernel))
  obtain ⟨hAgree, hHeader⟩ := hReads hValid encoding rfl requirements
  refine ⟨hSeparate.mpr ⟨hValid, hApart, hMasks⟩, hResult, ?_⟩
  exact (hHeader _ builder _ .refl hResult).mpr ⟨hAgree hApart, by decide +kernel⟩

/-- The flags of a composition overlap its number of protocols, and the pointer mask removes all
bits that the hop to the superclass keeps. The layout is accepted, and the number of protocols is
read as part of the flags. -/
theorem accepted_overlapping_header :
    let encoding : CompositionLayout := ⟨0, 8, 10, 16, ~~~1⟩
    let superclass : Hop := .masked 8 0xFFFFFFFF00000000
    let layout := { compact .eight with
      pointerMask := 0xFFFFFFFF, superclass := .single superclass, composition := some encoding }
    let requirements : Requirements := ⟨[0x1000], some 0x2000⟩
    let builder := Builder.start layout Builder.defaultBase
    let composition := Build.composition requirements.protocols requirements.superclass
    (∀ offset ∈ layout.offsets, offset.toNat < 2 ^ 32) ∧ layout.validate = .ok () ∧
      ¬ layout.HeaderApart ∧ ¬ layout.MasksMeet ∧ layout.Erases superclass ∧
      builder.result? composition = some Builder.defaultBase ∧
      requirements.flags.bits = 0x40000000 ∧
      (layout.readHalf (Address.plus Builder.defaultBase encoding.flagsOffset)).run
        (builder.after composition).read = some 0x10000 := by
  intro encoding superclass layout requirements builder composition
  have hOverlap : ¬ layout.HeaderApart := fun apart =>
    absurd (headerFields_apart_iff.mp (apart encoding rfl)) (by decide)
  have hMasks : ¬ layout.MasksMeet := fun masks =>
    masks.hops layout.superclass (by decide) superclass (by decide) (by decide)
  refine ⟨offsets_lt_of_all (by decide +kernel), by decide +kernel, hOverlap, hMasks, ?_⟩
  exact ⟨erases_iff.mpr (by decide), by decide +kernel, rfl, by decide +kernel⟩

end Layout

end Conformance
