import Conformance.Proofs.Validation
import Mathlib.Algebra.Ring.Nat
import Mathlib.Order.CompletePartialOrder
import Mathlib.Order.Interval.Set.Disjoint
/-! The fields of one structure. Validation keeps the fields of records and lists apart, and the
header of a composition from the words behind it. It does not compare the fields of the header with
each other, and it looks at each mask by itself. -/
namespace Conformance

namespace Layout

/-- The bytes of a field, by their distance from the start of the structure. -/
def span (offset : UInt64) (width : Nat) : Set Nat := Set.Ico offset.toNat (offset.toNat + width)

/-- The bytes of everything from an offset on: of the records of a list, or of the words behind a
header, however many there are. -/
def onward (offset : UInt64) : Set Nat := Set.Ici offset.toNat

variable {first second : UInt64} {width other : Nat}

theorem disjoint_span_iff (hWidth : 0 < width) (hOther : 0 < other) :
    Disjoint (span first width) (span second other) ↔
      first.toNat + width ≤ second.toNat ∨ second.toNat + other ≤ first.toNat := by
  unfold span
  rw [Set.Ico_disjoint_Ico]
  omega

theorem disjoint_span_onward_iff (hWidth : 0 < width) :
    Disjoint (span first width) (onward second) ↔ first.toNat + width ≤ second.toNat := by
  unfold span onward
  rw [Set.disjoint_left]
  simp only [Set.mem_Ico, Set.mem_Ici]
  constructor
  · intro h
    have hLast := @h (first.toNat + width - 1) (by omega)
    omega
  · intro hEnd position hPosition
    omega

theorem span_subset_iff {limit : Nat} (hWidth : 0 < width) :
    span first width ⊆ Set.Iio limit ↔ first.toNat + width ≤ limit := by
  unfold span
  constructor
  · intro h
    have hLast := @h (first.toNat + width - 1) (Set.mem_Ico.mpr (by omega))
    rw [Set.mem_Iio] at hLast
    omega
  · intro hEnd position hPosition
    rw [Set.mem_Ico] at hPosition
    exact Set.mem_Iio.mpr (by omega)

variable (layout : Layout)

/-- The offsets that a layout gives. -/
def offsets : List UInt64 :=
  [layout.objectType, layout.superclass, layout.conformances].flatMap
      (fun path => path.hops.map (·.offset)) ++
    [layout.list.countOffset, layout.list.entriesOffset, layout.record.interfaceOffset] ++
    (match layout.record.nested with
      | .absent => []
      | .inRecord offset | .inInterface offset => [offset]) ++
    match layout.composition with
    | none => []
    | some encoding =>
        [encoding.kindOffset, encoding.flagsOffset, encoding.countOffset, encoding.trailingOffset]

/-- The fields of a record. -/
def recordFields : List (Set Nat) :=
  span layout.record.interfaceOffset layout.pointerWidth.bytes ::
    match layout.record.nested with
    | .inRecord offset => [span offset layout.pointerWidth.bytes]
    | _ => []

/-- The count of a list, and its records. -/
def listFields : List (Set Nat) :=
  [span layout.list.countOffset layout.list.countWidth.bytes, onward layout.list.entriesOffset]

/-- The fields of a composition's header: its kind, its flags and its count. -/
def headerFields (encoding : CompositionLayout) : List (Set Nat) :=
  [span encoding.kindOffset layout.pointerWidth.bytes, span encoding.flagsOffset 4,
    span encoding.countOffset 4]

/-- The fields of a composition: its header, and the words behind it. -/
def compositionFields (encoding : CompositionLayout) : List (Set Nat) :=
  layout.headerFields encoding ++ [onward encoding.trailingOffset]

/-- The fields of a composition's header do not overlap. -/
def HeaderApart : Prop :=
  ∀ encoding, layout.composition = some encoding → (layout.headerFields encoding).Pairwise Disjoint

/-- The masks that a pointer goes through have a bit in common. -/
structure MasksMeet : Prop where
  hops : ∀ path ∈ [layout.objectType, layout.superclass, layout.conformances],
    ∀ hop ∈ path.hops, layout.pointerMask &&& hop.mask ≠ 0
  references : ∀ encoding, layout.composition = some encoding →
    layout.pointerMask &&& encoding.protocolMask ≠ 0

/-- What a layout is validated for: no two fields of a structure overlap, a record has room for its
fields, and masks leave something of every pointer. -/
structure Separate : Prop where
  record : layout.recordFields.Pairwise Disjoint
  room : ∀ field ∈ layout.recordFields, field ⊆ Set.Iio layout.record.stride.toNat
  list : layout.listFields.Pairwise Disjoint
  composition : ∀ encoding, layout.composition = some encoding →
    (layout.compositionFields encoding).Pairwise Disjoint
  masks : layout.MasksMeet

/-- What is compared when a layout is validated. -/
structure Checked : Prop where
  record : layout.recordFields.Pairwise Disjoint
  room : ∀ field ∈ layout.recordFields, field ⊆ Set.Iio layout.record.stride.toNat
  list : layout.listFields.Pairwise Disjoint
  trailing : ∀ encoding, layout.composition = some encoding →
    ∀ field ∈ layout.headerFields encoding, Disjoint field (onward encoding.trailingOffset)
  pointerMask : layout.pointerMask ≠ 0
  hopMask : ∀ path ∈ [layout.objectType, layout.superclass, layout.conformances],
    ∀ hop ∈ path.hops, hop.mask ≠ 0
  protocolMask : ∀ encoding, layout.composition = some encoding → encoding.protocolMask ≠ 0

variable {layout}

/-- Whether the offsets are small is computed along the list: a search of all words would decide
this as well. -/
theorem offsets_lt_of_all {bound : Nat}
    (hAll : (layout.offsets.all fun offset => offset.toNat < bound) = true) :
    ∀ offset ∈ layout.offsets, offset.toNat < bound :=
  fun offset hOffset => of_decide_eq_true (List.all_eq_true.mp hAll offset hOffset)

/-- The fields whose ends are compared with something have offsets of the layout. -/
theorem boundedFields_small : ∀ field ∈ layout.boundedFields,
    field.1 ∈ layout.offsets ∧ field.2 ≤ 8 := by
  unfold boundedFields offsets
  cases layout.record.nested <;> cases layout.composition <;> simp [Width.bytes_le]

theorem validate_eq_ok_iff_consistent
    (hOffsets : ∀ offset ∈ layout.offsets, offset.toNat < 2 ^ 32) :
    layout.validate = .ok () ↔ layout.Consistent := by
  have hEnds : ∀ field ∈ layout.boundedFields,
      wordEnd field.1 field.2 = exactEnd field.1 field.2 := by
    intro field hField
    obtain ⟨hOffset, hWidth⟩ := boundedFields_small field hField
    have hSmall := hOffsets field.1 hOffset
    have hSize : UInt64.size = 2 ^ 64 := rfl
    exact wordEnd_eq_exactEnd (by unfold exactEnd; omega)
  rw [validate_eq_ok_iff_wordEnd]
  exact ⟨fun h => h.congr hEnds, fun h => h.congr fun field hField => (hEnds field hField).symm⟩

theorem recordFields_iff : (layout.recordFields.Pairwise Disjoint ∧
      ∀ field ∈ layout.recordFields, field ⊆ Set.Iio layout.record.stride.toNat) ↔
    1 ≤ layout.record.stride.toNat ∧
      exactEnd layout.record.interfaceOffset layout.pointerWidth.bytes ≤
        layout.record.stride.toNat ∧
      ∀ offset, layout.record.nested = .inRecord offset →
        exactEnd offset layout.pointerWidth.bytes ≤ layout.record.stride.toNat ∧
          layout.pointerWidth.bytes ≤
            ((offset.toNat : Int) - layout.record.interfaceOffset.toNat).natAbs := by
  have hWord := layout.pointerWidth.bytes_pos
  unfold recordFields exactEnd
  cases layout.record.nested with
  | absent | inInterface =>
      simp [span_subset_iff hWord]
      omega
  | inRecord offset =>
      simp [span_subset_iff hWord, disjoint_span_iff hWord hWord]
      omega

theorem listFields_iff : layout.listFields.Pairwise Disjoint ↔
    exactEnd layout.list.countOffset layout.list.countWidth.bytes ≤
      layout.list.entriesOffset.toNat := by
  unfold listFields
  rw [List.pairwise_pair]
  exact disjoint_span_onward_iff layout.list.countWidth.bytes_pos

theorem headerFields_iff {encoding : CompositionLayout} :
    (∀ field ∈ layout.headerFields encoding, Disjoint field (onward encoding.trailingOffset)) ↔
      exactEnd encoding.kindOffset layout.pointerWidth.bytes ≤ encoding.trailingOffset.toNat ∧
        exactEnd encoding.flagsOffset 4 ≤ encoding.trailingOffset.toNat ∧
        exactEnd encoding.countOffset 4 ≤ encoding.trailingOffset.toNat := by
  unfold headerFields exactEnd
  simp [disjoint_span_onward_iff layout.pointerWidth.bytes_pos,
    disjoint_span_onward_iff (by decide : 0 < 4)]

theorem headerFields_apart_iff {encoding : CompositionLayout} :
    (layout.headerFields encoding).Pairwise Disjoint ↔
      (exactEnd encoding.kindOffset layout.pointerWidth.bytes ≤ encoding.flagsOffset.toNat ∨
        exactEnd encoding.flagsOffset 4 ≤ encoding.kindOffset.toNat) ∧
      (exactEnd encoding.kindOffset layout.pointerWidth.bytes ≤ encoding.countOffset.toNat ∨
        exactEnd encoding.countOffset 4 ≤ encoding.kindOffset.toNat) ∧
      (exactEnd encoding.flagsOffset 4 ≤ encoding.countOffset.toNat ∨
        exactEnd encoding.countOffset 4 ≤ encoding.flagsOffset.toNat) := by
  have hWord := layout.pointerWidth.bytes_pos
  have hHalf : 0 < 4 := by decide
  unfold headerFields exactEnd
  simp [disjoint_span_iff hWord hHalf, disjoint_span_iff hHalf hHalf, and_assoc]

theorem consistent_iff_checked : layout.Consistent ↔ layout.Checked := by
  constructor
  · intro consistent
    obtain ⟨record, room⟩ := recordFields_iff.mpr
      ⟨consistent.stride, consistent.interface, consistent.nested⟩
    exact ⟨record, room, listFields_iff.mpr consistent.count,
      fun encoding hEncoding => headerFields_iff.mpr (consistent.composition encoding hEncoding).2,
      consistent.pointerMask, consistent.hopMask,
      fun encoding hEncoding => (consistent.composition encoding hEncoding).1⟩
  · intro checked
    obtain ⟨hStride, hInterface, hNested⟩ := recordFields_iff.mp ⟨checked.record, checked.room⟩
    exact ⟨checked.pointerMask, checked.hopMask, hStride, hInterface, hNested,
      listFields_iff.mp checked.list, fun encoding hEncoding =>
        ⟨checked.protocolMask encoding hEncoding,
          headerFields_iff.mp (checked.trailing encoding hEncoding)⟩⟩

/-- Validation compares everything that it should, the fields of a composition's header with each
other and the masks with each other excepted. -/
theorem separate_iff_checked : layout.Separate ↔
    layout.Checked ∧ layout.HeaderApart ∧ layout.MasksMeet := by
  have hLeft {left right : UInt64} (h : left &&& right ≠ 0) : left ≠ 0 := by
    rintro rfl
    exact h UInt64.zero_and
  have hRight {left right : UInt64} (h : left &&& right ≠ 0) : right ≠ 0 := by
    rintro rfl
    exact h UInt64.and_zero
  constructor
  · intro separate
    have hFields (encoding : CompositionLayout) (hEncoding : layout.composition = some encoding) :=
      List.pairwise_append.mp (separate.composition encoding hEncoding)
    refine ⟨⟨separate.record, separate.room, separate.list,
      fun encoding hEncoding field hField => ?_, ?_, fun path hPath hop hHop => ?_,
      fun encoding hEncoding => ?_⟩,
      fun encoding hEncoding => (hFields encoding hEncoding).1, separate.masks⟩
    · exact (hFields encoding hEncoding).2.2 field hField _ List.mem_cons_self
    · exact hLeft (separate.masks.hops _ List.mem_cons_self _ List.mem_cons_self)
    · exact hRight (separate.masks.hops path hPath hop hHop)
    · exact hRight (separate.masks.references encoding hEncoding)
  · intro h
    obtain ⟨checked, apart, masks⟩ := h
    refine ⟨checked.record, checked.room, checked.list, fun encoding hEncoding => ?_, masks⟩
    refine List.pairwise_append.mpr ⟨apart encoding hEncoding, List.pairwise_singleton _ _,
      fun field hField other hOther => ?_⟩
    exact List.mem_singleton.mp hOther ▸ checked.trailing encoding hEncoding field hField

end Layout

end Conformance
