import Conformance.Metadata.Runtime
import Mathlib.Tactic.SplitIfs
/-! What the validation of a layout accepts. The end of a field is a sum of words, which goes round
the end of the address space where the exact sum passes it. A layout that is consistent in exact
arithmetic is always accepted; an accepted layout is consistent unless the end of one of its fields
went round. -/
namespace Conformance

namespace Layout

/-- The position after a field. -/
def exactEnd (offset : UInt64) (width : Nat) : Nat := offset.toNat + width

/-- The position after a field, as a word. -/
def wordEnd (offset : UInt64) (width : Nat) : Nat := (offset.toNat + width) % UInt64.size

/-- The records, lists and compositions of a layout have room for their fields, and no mask removes
every bit, for a way to tell where fields end. -/
structure ConsistentBy (fieldEnd : UInt64 → Nat → Nat) (layout : Layout) : Prop where
  pointerMask : layout.pointerMask ≠ 0
  hopMask : ∀ path ∈ [layout.objectType, layout.superclass, layout.conformances],
    ∀ hop ∈ path.hops, hop.mask ≠ 0
  stride : 1 ≤ layout.record.stride.toNat
  interface : fieldEnd layout.record.interfaceOffset layout.pointerWidth.bytes ≤
    layout.record.stride.toNat
  nested : ∀ offset, layout.record.nested = .inRecord offset →
    fieldEnd offset layout.pointerWidth.bytes ≤ layout.record.stride.toNat ∧
      layout.pointerWidth.bytes ≤
        ((offset.toNat : Int) - layout.record.interfaceOffset.toNat).natAbs
  count : fieldEnd layout.list.countOffset layout.list.countWidth.bytes ≤
    layout.list.entriesOffset.toNat
  composition : ∀ encoding, layout.composition = some encoding → encoding.protocolMask ≠ 0 ∧
    fieldEnd encoding.kindOffset layout.pointerWidth.bytes ≤ encoding.trailingOffset.toNat ∧
    fieldEnd encoding.flagsOffset 4 ≤ encoding.trailingOffset.toNat ∧
    fieldEnd encoding.countOffset 4 ≤ encoding.trailingOffset.toNat

/-- The layout is consistent in exact arithmetic. -/
abbrev Consistent (layout : Layout) : Prop := layout.ConsistentBy exactEnd

/-- The fields whose ends are compared with something, each with its offset and its width. -/
def boundedFields (layout : Layout) : List (UInt64 × Nat) :=
  let word := layout.pointerWidth.bytes
  (layout.record.interfaceOffset, word) ::
    (layout.list.countOffset, layout.list.countWidth.bytes) ::
    (match layout.record.nested with
      | .inRecord offset => [(offset, word)]
      | _ => []) ++
    match layout.composition with
    | some encoding =>
        [(encoding.kindOffset, word), (encoding.flagsOffset, 4), (encoding.countOffset, 4)]
    | none => []

variable {layout : Layout}

theorem toNat_add_word (offset : UInt64) (width : Width) :
    (offset + width.word).toNat = wordEnd offset width.bytes := by
  rw [UInt64.toNat_add, Width.word_toNat]
  rfl

theorem toNat_add_four (offset : UInt64) : (offset + 4).toNat = wordEnd offset 4 := by
  rw [UInt64.toNat_add]
  rfl

theorem toNat_max_sub_min (first second : UInt64) :
    (max first second - min first second).toNat =
      ((first.toNat : Int) - second.toNat).natAbs := by
  have hMax : max first second = if first ≤ second then second else first := rfl
  have hMin : min first second = if first ≤ second then first else second := rfl
  rw [hMax, hMin]
  split_ifs with hOrder
  · rw [UInt64.toNat_sub_of_le _ _ hOrder]
    rw [UInt64.le_iff_toNat_le] at hOrder
    omega
  · have hBack := UInt64.le_of_lt (UInt64.not_le.mp hOrder)
    rw [UInt64.toNat_sub_of_le _ _ hBack]
    rw [UInt64.le_iff_toNat_le] at hBack
    omega

theorem maskFault?_eq_none_iff : layout.maskFault? = none ↔ layout.pointerMask ≠ 0 ∧
    ∀ path ∈ [layout.objectType, layout.superclass, layout.conformances],
      ∀ hop ∈ path.hops, hop.mask ≠ 0 := by
  unfold maskFault?
  split_ifs with hPointer
  · simp [hPointer]
  · simp [hPointer, List.find?_eq_none]

theorem recordFault?_eq_none_iff : layout.recordFault? = none ↔
    1 ≤ layout.record.stride.toNat ∧
      wordEnd layout.record.interfaceOffset layout.pointerWidth.bytes ≤
        layout.record.stride.toNat ∧
      ∀ offset, layout.record.nested = .inRecord offset →
        wordEnd offset layout.pointerWidth.bytes ≤ layout.record.stride.toNat ∧
          layout.pointerWidth.bytes ≤
            ((offset.toNat : Int) - layout.record.interfaceOffset.toNat).natAbs := by
  have hStride : layout.record.stride = 0 ↔ ¬ 1 ≤ layout.record.stride.toNat := by
    rw [← UInt64.toNat_inj, UInt64.toNat_zero]
    omega
  unfold recordFault? Layout.word
  simp only [UInt64.lt_iff_toNat_lt, toNat_add_word, toNat_max_sub_min, Width.word_toNat, hStride]
  cases layout.record.nested with
  | absent =>
      dsimp only
      split_ifs <;> simp <;> omega
  | inInterface offset =>
      dsimp only
      split_ifs <;> simp <;> omega
  | inRecord offset =>
      simp only [NestedList.inRecord.injEq, forall_eq']
      split_ifs <;> simp <;> omega

theorem listFault?_eq_none_iff : layout.listFault? = none ↔
    wordEnd layout.list.countOffset layout.list.countWidth.bytes ≤
      layout.list.entriesOffset.toNat := by
  unfold listFault?
  simp only [UInt64.lt_iff_toNat_lt, toNat_add_word]
  split_ifs <;> simp <;> omega

theorem compositionFault?_eq_none_iff : layout.compositionFault? = none ↔
    ∀ encoding, layout.composition = some encoding → encoding.protocolMask ≠ 0 ∧
      wordEnd encoding.kindOffset layout.pointerWidth.bytes ≤ encoding.trailingOffset.toNat ∧
      wordEnd encoding.flagsOffset 4 ≤ encoding.trailingOffset.toNat ∧
      wordEnd encoding.countOffset 4 ≤ encoding.trailingOffset.toNat := by
  unfold compositionFault? Layout.word
  cases layout.composition with
  | none => simp
  | some encoding =>
      simp only [Option.bind_eq_bind, Option.bind_some, UInt64.lt_iff_toNat_lt, toNat_add_word,
        toNat_add_four, Option.some.injEq, forall_eq']
      split_ifs with hMask hEnds
      · simp [hMask]
      · simp only [false_iff]
        omega
      · simp only [true_iff]
        exact ⟨hMask, by omega⟩

/-- A layout is accepted if no check finds a fault; the ends that are compared are words. -/
theorem validate_eq_ok_iff_wordEnd : layout.validate = .ok () ↔ layout.ConsistentBy wordEnd := by
  have hFault : layout.validate = .ok () ↔ layout.fault? = none := by
    unfold validate
    cases layout.fault? <;> simp
  unfold fault? at hFault
  rw [hFault, Option.or_eq_none_iff, Option.or_eq_none_iff, Option.or_eq_none_iff,
    maskFault?_eq_none_iff, recordFault?_eq_none_iff, listFault?_eq_none_iff,
    compositionFault?_eq_none_iff]
  constructor
  · intro h
    obtain ⟨⟨hPointer, hHops⟩, ⟨hStride, hInterface, hNested⟩, hCount, hComposition⟩ := h
    exact ⟨hPointer, hHops, hStride, hInterface, hNested, hCount, hComposition⟩
  · intro h
    exact ⟨⟨h.pointerMask, h.hopMask⟩, ⟨h.stride, h.interface, h.nested⟩, h.count, h.composition⟩

/-- Only the ends of the bounded fields matter. -/
theorem ConsistentBy.congr {fieldEnd other : UInt64 → Nat → Nat}
    (hEnds : ∀ field ∈ layout.boundedFields, fieldEnd field.1 field.2 = other field.1 field.2)
    (consistent : layout.ConsistentBy fieldEnd) : layout.ConsistentBy other := by
  have hInterface := hEnds (layout.record.interfaceOffset, layout.pointerWidth.bytes)
    (by simp [boundedFields])
  have hCount := hEnds (layout.list.countOffset, layout.list.countWidth.bytes)
    (by simp [boundedFields])
  refine ⟨consistent.pointerMask, consistent.hopMask, consistent.stride,
    hInterface ▸ consistent.interface, fun offset hNested => ?_, hCount ▸ consistent.count,
    fun encoding hComposition => ?_⟩
  · have hEnd := hEnds (offset, layout.pointerWidth.bytes) (by simp [boundedFields, hNested])
    exact hEnd ▸ consistent.nested offset hNested
  · have hKind := hEnds (encoding.kindOffset, layout.pointerWidth.bytes)
      (by simp [boundedFields, hComposition])
    have hFlags := hEnds (encoding.flagsOffset, 4) (by simp [boundedFields, hComposition])
    have hCount := hEnds (encoding.countOffset, 4) (by simp [boundedFields, hComposition])
    obtain ⟨hMask, hKindEnd, hFlagsEnd, hCountEnd⟩ :=
      consistent.composition encoding hComposition
    exact ⟨hMask, hKind ▸ hKindEnd, hFlags ▸ hFlagsEnd, hCount ▸ hCountEnd⟩

/-- In a consistent layout every bounded field ends at or below some word. -/
theorem Consistent.exactEnd_lt (consistent : layout.Consistent) :
    ∀ field ∈ layout.boundedFields, exactEnd field.1 field.2 < UInt64.size := by
  have hBelow {position : Nat} {word : UInt64} (h : position ≤ word.toNat) :
      position < UInt64.size := Nat.lt_of_le_of_lt h word.toNat_lt
  have hNested := consistent.nested
  have hComposition := consistent.composition
  simp only [boundedFields, List.cons_append, List.mem_cons, List.mem_append]
  rintro field (rfl | rfl | hField | hField)
  · exact hBelow consistent.interface
  · exact hBelow consistent.count
  · split at hField
    · rename_i offset hRecord
      obtain rfl := List.mem_singleton.mp hField
      exact hBelow (hNested offset hRecord).1
    · cases hField
  · split at hField
    · rename_i encoding hEncoding
      obtain ⟨-, hKind, hFlags, hCount⟩ := hComposition encoding hEncoding
      simp only [List.mem_cons, List.not_mem_nil, or_false] at hField
      obtain rfl | rfl | rfl := hField
      · exact hBelow hKind
      · exact hBelow hFlags
      · exact hBelow hCount
    · cases hField

theorem wordEnd_eq_exactEnd {offset : UInt64} {width : Nat}
    (hEnd : exactEnd offset width < UInt64.size) : wordEnd offset width = exactEnd offset width :=
  Nat.mod_eq_of_lt hEnd

/-- A layout is accepted if it is consistent for ends that go round the address space. The
consistent layouts are the accepted ones whose bounded fields all end inside it. -/
theorem accepted_and_consistent_iff (layout : Layout) :
    (layout.validate = .ok () ↔ layout.ConsistentBy wordEnd) ∧
      (layout.Consistent ↔ layout.validate = .ok () ∧
        ∀ field ∈ layout.boundedFields, exactEnd field.1 field.2 < UInt64.size) := by
  refine ⟨validate_eq_ok_iff_wordEnd, ?_⟩
  rw [validate_eq_ok_iff_wordEnd]
  constructor
  · intro consistent
    have hEnds := consistent.exactEnd_lt
    exact ⟨consistent.congr fun field hField => (wordEnd_eq_exactEnd (hEnds field hField)).symm,
      hEnds⟩
  · intro h
    obtain ⟨consistent, hEnds⟩ := h
    exact consistent.congr fun field hField => wordEnd_eq_exactEnd (hEnds field hField)

/-- An interface pointer that ends at the end of the address space does not fit a record of sixteen
bytes, and is accepted: as a word its end is 0. -/
theorem accepted_inconsistent_at_end :
    let layout := { compact .eight with record := ⟨16, 0xFFFFFFFFFFFFFFF8, .inRecord 8⟩ }
    layout.validate = .ok () ∧ ¬ layout.Consistent := by
  refine ⟨rfl, fun consistent => ?_⟩
  have hInterface := consistent.interface
  revert hInterface
  decide

end Layout

end Conformance
